import Mathlib.Order.Lattice
import Mathlib.Order.Nat
import Mathlib.Tactic.Common

/-!
# Periods and critical positions of words

A word is its letters `x` and its length `n`. The maximal suffix of a word, under the order of the
letters and under the reverse order, starts at two positions; the later of them is critical
(`Maximal.critical`): what repeats around it is a period of the whole word. That is what the shifts of
a search by two-way matching rest on (`Critical.mismatch`, `Critical.shift`).

`Scanning` is the invariant of the scan that finds a maximal suffix and its least period, with one
lemma for each way the scan goes on.
-/

namespace Words

open Nat

universe u

variable {α : Type u}

/-! ### Periods -/

/-- The word from `s` on has the period `p`. -/
def PeriodFrom (x : ℕ → α) (n s p : ℕ) : Prop := ∀ k, s ≤ k → k + p < n → x (k + p) = x k

/-- The word has the period `p`. -/
def HasPeriod (x : ℕ → α) (n p : ℕ) : Prop := PeriodFrom x n 0 p

/-- The `q` letters before `s` are those after it, as far as both are in the word. -/
def Repeats (x : ℕ → α) (n s q : ℕ) : Prop := ∀ k, k < s → s ≤ k + q → k + q < n → x (k + q) = x k

/-- Whatever repeats around `s` is a period of the word, and reaches back past its start. -/
def Critical (x : ℕ → α) (n s : ℕ) : Prop := ∀ q, 0 < q → Repeats x n s q → s < q ∧ HasPeriod x n q

/-- `p` is the least period of the word from `s` on. -/
structure LeastPeriod (x : ℕ → α) (n s p : ℕ) : Prop where
  pos : 0 < p
  le : s + p ≤ n
  period : PeriodFrom x n s p
  least : ∀ q, 0 < q → PeriodFrom x n s q → p ≤ q

section Periods

variable {x : ℕ → α} {n s p q : ℕ}

theorem HasPeriod.from (h : HasPeriod x n q) : PeriodFrom x n s q := fun k _ => h k (zero_le k)

theorem HasPeriod.repeats (h : HasPeriod x n q) : Repeats x n s q := fun k _ _ => h k (zero_le k)

/-- A period of the word is longer than the part before a critical position. -/
theorem Critical.lt_period (h : Critical x n s) (hq : 0 < q) (hp : HasPeriod x n q) : s < q :=
  (h q hq hp.repeats).1

/-- A period of the word that is no longer than its right part is a multiple of the right part's least
period, and so this is a period of the word: the difference repeats around the position. -/
theorem Critical.least_hasPeriod (h : Critical x n s) (hp : LeastPeriod x n s p) (hq : 0 < q)
    (hle : s + q ≤ n) (hperiod : HasPeriod x n q) : HasPeriod x n p := by
  induction q using Nat.strong_induction_on with
  | _ q ih =>
    obtain heq | hlt := Nat.eq_or_lt_of_le (hp.least q hq hperiod.from)
    · exact heq ▸ hperiod
    · have hpos := hp.pos
      have hrepeats : Repeats x n s (q - p) := by
        intro k hk hks hkn
        have hfar : x (k + q) = x k := hperiod k (Nat.zero_le k) (by omega)
        have hnear := hp.period (k + (q - p)) hks (by omega)
        rw [show k + (q - p) + p = k + q by omega] at hnear
        exact hnear.symm.trans hfar
      exact ih (q - p) (by omega) (by omega) (by omega) (h _ (by omega) hrepeats).2

/-! ### Shifts -/

variable {t : ℕ → α} {at' index : ℕ}

/-- The word is in the text at a position. -/
def MatchesAt (x : ℕ → α) (n : ℕ) (t : ℕ → α) (at' : ℕ) : Prop := ∀ k < n, t (at' + k) = x k

/-- What matches right of the position repeats around it, for the distance to another match. -/
theorem MatchesAt.repeats (hmatches : MatchesAt x n t (at' + q))
    (hright : ∀ k, s ≤ k → k < index → t (at' + k) = x k) (hs : s + q ≤ index ∨ index = n) :
    Repeats x n s q := by
  intro k hk hks hkn
  have hthere := hmatches k (by omega)
  have hhere := hright (k + q) hks (by omega)
  rw [show at' + (k + q) = at' + q + k by omega] at hhere
  exact hhere.symm.trans hthere

/-- **A mismatch right of a critical position** rules out every start up to it. -/
theorem Critical.mismatch (h : Critical x n s) (hright : ∀ k, s ≤ k → k < index → t (at' + k) = x k)
    (hs : s ≤ index) (hindex : index < n) (hdiffer : t (at' + index) ≠ x index)
    (hq : q < index - s + 1) :
    ¬ MatchesAt x n t (at' + q) := by
  intro hmatches
  obtain rfl | hpos := Nat.eq_zero_or_pos q
  · exact hdiffer (hmatches index hindex)
  · have hperiod := (h q hpos (hmatches.repeats hright (.inl (by omega)))).2
    have hthere := hmatches (index - q) (by omega)
    have hback := hperiod (index - q) (zero_le _) (by omega)
    rw [show index - q + q = index by omega] at hback
    rw [show at' + q + (index - q) = at' + index by omega] at hthere
    exact hdiffer (hthere.trans hback.symm)

/-- **A match right of a critical position** leaves only starts that are a period away. -/
theorem Critical.shift (h : Critical x n s) (hright : ∀ k, s ≤ k → k < n → t (at' + k) = x k)
    (hq : 0 < q) (hmatches : MatchesAt x n t (at' + q)) : s < q ∧ HasPeriod x n q :=
  h q hq (hmatches.repeats hright (.inr rfl))

end Periods

/-! ### Maximal suffixes -/

variable [LinearOrder α]

/-- The order of letters, or the reverse order. -/
def Below (reversed : Bool) (a b : α) : Prop := if reversed then b < a else a < b

/-- The suffix from `i` first differs from the one from `j` by a lesser letter. -/
def Less (reversed : Bool) (x : ℕ → α) (n i j : ℕ) : Prop :=
  ∃ d, i + d < n ∧ j + d < n ∧ Below reversed (x (i + d)) (x (j + d)) ∧
    ∀ e < d, x (i + e) = x (j + e)

/-- The suffix from `s` is the maximal one: a longer one first differs by a lesser letter, and a
shorter one by no greater letter. -/
structure Maximal (reversed : Bool) (x : ℕ → α) (n s : ℕ) : Prop where
  lt : s < n
  before : ∀ i < s, Less reversed x n i s
  after : ∀ i, s < i → ∀ d, i + d < n → (∀ e < d, x (i + e) = x (s + e)) →
    ¬ Below reversed (x (s + d)) (x (i + d))

variable {x : ℕ → α} {n : ℕ} {reversed : Bool}

namespace Below

variable {a b c : α}

theorem irrefl : ¬ Below reversed a a := by
  cases reversed <;> exact lt_irrefl a

theorem trans (hab : Below reversed a b) (hbc : Below reversed b c) : Below reversed a c := by
  cases reversed with
  | false => exact lt_trans (show a < b from hab) (show b < c from hbc)
  | true => exact lt_trans (show c < b from hbc) (show b < a from hab)

theorem asymm (hab : Below reversed a b) : ¬ Below reversed b a := fun hba => irrefl (hab.trans hba)

/-- Letters neither of which is below the other, in one order and in its reverse, are equal. -/
theorem eq_of_not (h : ¬ Below reversed a b) (h' : ¬ Below (!reversed) a b) : a = b := by
  cases reversed with
  | false => exact le_antisymm (not_lt.mp h') (not_lt.mp h)
  | true => exact le_antisymm (not_lt.mp h) (not_lt.mp h')

end Below

theorem Less.trans {i j k : ℕ} (hij : Less reversed x n i j) (hjk : Less reversed x n j k) :
    Less reversed x n i k := by
  obtain ⟨d, hi, hj, hbelow, heq⟩ := hij
  obtain ⟨d', hj', hk', hbelow', heq'⟩ := hjk
  obtain hlt | rfl | hgt := lt_trichotomy d d'
  · exact ⟨d, hi, by omega, heq' d hlt ▸ hbelow,
      fun e he => (heq e he).trans (heq' e (he.trans hlt))⟩
  · exact ⟨d, hi, hk', hbelow.trans hbelow', fun e he => (heq e he).trans (heq' e he)⟩
  · exact ⟨d', by omega, hk', (heq d' hgt).symm ▸ hbelow',
      fun e he => (heq e (he.trans hgt)).trans (heq' e he)⟩

namespace Maximal

variable {s s' q : ℕ}

/-- What repeats around the start of a maximal suffix reaches back past the start of the word: else
the suffix that far before would be no lesser. -/
theorem lt_of_repeats (h : Maximal reversed x n s) (hq : 0 < q) (hrepeats : Repeats x n s q) :
    s < q := by
  by_contra hle
  obtain ⟨d, -, hd, hbelow, heq⟩ := h.before (s - q) (by omega)
  by_cases hdq : d < q
  · have hsame := hrepeats (s - q + d) (by omega) (by omega) (by omega)
    rw [show s - q + d + q = s + d by omega] at hsame
    rw [hsame] at hbelow
    exact Below.irrefl hbelow
  · refine h.after (s + q) (by omega) (d - q) (by omega) (fun e he => ?_) ?_
    · have hsame := heq (e + q) (by omega)
      rw [show s - q + (e + q) = s + e by omega] at hsame
      rw [show s + q + e = s + (e + q) by omega]
      exact hsame.symm
    · rw [show s + (d - q) = s - q + d by omega, show s + q + (d - q) = s + d by omega]
      exact hbelow

/-- **The later of the two maximal suffixes starts at a critical position.** A repetition around it
reaches past the start of the word, and both orders bound the right part by itself shifted. -/
theorem critical (h : Maximal reversed x n s) (h' : Maximal (!reversed) x n s') (hle : s' ≤ s) :
    Critical x n s := by
  intro q hq hrepeats
  have hs := h.lt_of_repeats hq hrepeats
  have hright : ∀ f, s + q + f < n → x (s + q + f) = x (s + f) := by
    intro f
    induction f using Nat.strong_induction_on with
    | _ f ih =>
      intro hf
      have hlow := h.after (s + q) (by omega) f hf fun e he => ih e he (by omega)
      have hhigh := h'.after (s' + q) (by omega) (s - s' + f) (by omega) fun e he => by
        by_cases hes : s' + e < s
        · have hsame := hrepeats (s' + e) hes (by omega) (by omega)
          rw [show s' + q + e = s' + e + q by omega]
          exact hsame
        · have hsame := ih (s' + e - s) (by omega) (by omega)
          rw [show s + q + (s' + e - s) = s' + q + e by omega,
            show s + (s' + e - s) = s' + e by omega] at hsame
          exact hsame
      rw [show s' + (s - s' + f) = s + f by omega,
        show s' + q + (s - s' + f) = s + q + f by omega] at hhigh
      exact (Below.eq_of_not hlow hhigh).symm
  refine ⟨hs, fun k _ hk => ?_⟩
  by_cases hks : k < s
  · exact hrepeats k hks (by omega) hk
  · have hsame := hright (k - s) (by omega)
    rw [show s + q + (k - s) = k + q by omega, show s + (k - s) = k by omega] at hsame
    exact hsame

end Maximal

/-! ### The scan for a maximal suffix -/

/-- The scan of a maximal suffix, at the letter `offset` past `right`: the word from `left` up to there
has the period `period`, whose first copy is greater than each of its own suffixes, and every suffix
before `left` is lesser than the one at `left`. -/
structure Scanning (reversed : Bool) (x : ℕ → α) (n left right offset period : ℕ) : Prop where
  offset_lt : offset < period
  le : right + offset ≤ n
  left_le : left + period ≤ right
  dvd : (right - left) % period = 0
  periodic : ∀ k, left ≤ k → k + period < right + offset → x (k + period) = x k
  before : ∀ i < left, Less reversed x n i left
  inside : ∀ t, 0 < t → t < period → ∃ d, t + d < period ∧
    Below reversed (x (left + t + d)) (x (left + d)) ∧ ∀ e < d, x (left + t + e) = x (left + e)

namespace Scanning

variable {left right offset period t e : ℕ}

theorem start (hn : 0 < n) : Scanning reversed x n 0 1 0 1 where
  offset_lt := Nat.one_pos
  le := hn
  left_le := Nat.le_refl 1
  dvd := mod_one _
  periodic k _ hk := by omega
  before i hi := by omega
  inside t h0 h1 := by omega

variable (h : Scanning reversed x n left right offset period)

include h

/-- A letter of the scanned part is that of the first copy. -/
theorem read (ht : left + t < right + offset) :
    x (left + t) = x (left + t % period) := by
  induction t using Nat.strong_induction_on with
  | _ t ih =>
    by_cases hlt : t < period
    · rw [mod_eq_of_lt hlt]
    · have hpos := h.offset_lt
      have hstep := h.periodic (left + (t - period)) (by omega) (by omega)
      rw [show left + (t - period) + period = left + t by omega] at hstep
      rw [hstep, ih (t - period) (by omega) (by omega), ← mod_eq_sub_mod (by omega)]

/-- A letter some way into a copy is that of the first copy. -/
theorem read_add (ht : left + t + e < right + offset) (he : t % period + e < period) :
    x (left + t + e) = x (left + t % period + e) := by
  have hmod : (t + e) % period = t % period + e := by
    rw [add_mod, add_mod_mod, mod_add_mod]
    rw [add_mod, mod_eq_of_lt (show e < period by omega), mod_eq_of_lt he]
  rw [Nat.add_assoc, h.read (by omega), hmod, Nat.add_assoc]

/-- The scanned part ends `offset` letters into a copy. -/
theorem mod_end :
    (right + offset - left) % period = offset := by
  have hle := h.left_le
  rw [show right + offset - left = right - left + offset by omega, add_mod, h.dvd, Nat.zero_add,
    mod_mod, mod_eq_of_lt h.offset_lt]

/-- A copy that starts in the whole copies ends in them. -/
theorem copy_le (ht : t < right - left) :
    t - t % period + period ≤ right - left := by
  have hpos := h.offset_lt
  obtain ⟨c, hc⟩ := dvd_of_mod_eq_zero h.dvd
  have hdiv := div_add_mod t period
  have hlt : t / period < c := by
    rw [Nat.div_lt_iff_lt_mul (by omega), Nat.mul_comm, ← hc]
    exact ht
  have hmul : period * (t / period + 1) ≤ period * c := Nat.mul_le_mul_left _ hlt
  rw [Nat.mul_add, Nat.mul_one, ← hc] at hmul
  omega

/-- The letters compared are equal: the period goes on. -/
theorem equal (hn : right + offset < n) (heq : x (right + offset) = x (left + offset)) :
    (offset + 1 = period → Scanning reversed x n left (right + offset + 1) 0 period) ∧
      (offset + 1 ≠ period → Scanning reversed x n left right (offset + 1) period) := by
  have hlt := h.offset_lt
  have hle := h.left_le
  have hperiodic : ∀ k, left ≤ k → k + period < right + offset + 1 → x (k + period) = x k := by
    intro k hk hkn
    by_cases hlast : k + period < right + offset
    · exact h.periodic k hk hlast
    · have hread := h.read (t := k - left) (by omega)
      have hmod : (k - left) % period = offset := by
        rw [← h.mod_end, show right + offset - left = k - left + period by omega, add_mod_right]
      rw [hmod, show left + (k - left) = k by omega] at hread
      rw [show k + period = right + offset by omega, heq, hread]
  refine ⟨fun hwhole => ?_, fun hpart => ?_⟩
  · refine ⟨by omega, by omega, by omega, ?_, hperiodic, h.before, h.inside⟩
    rw [show right + offset + 1 - left = right - left + period by omega, add_mod_right]
    exact h.dvd
  · exact ⟨by omega, by omega, hle, h.dvd, hperiodic, h.before, h.inside⟩

/-- The letter compared is lesser: the whole scanned part becomes the first copy. -/
theorem below (hn : right + offset < n)
    (hbelow : Below reversed (x (right + offset)) (x (left + offset))) :
    Scanning reversed x n left (right + offset + 1) 0 (right + offset + 1 - left) := by
  have hlt := h.offset_lt
  have hle := h.left_le
  have hend := h.mod_end
  refine ⟨by omega, by omega, by omega, mod_self _, fun k hk hkn => by omega, h.before, ?_⟩
  intro t ht0 ht
  generalize hT : right + offset - left = T at hend
  have hlast : left + T = right + offset := by omega
  rw [← hlast] at hbelow
  obtain hr | hr := Nat.eq_zero_or_pos (t % period)
  · -- The suffix starts at a copy: it agrees up to the last letter.
    have hmod : (T - t) % period = offset := by
      rw [← hend, ← Nat.sub_add_cancel (show t ≤ T by omega), add_mod, hr, Nat.add_zero, mod_mod,
        Nat.sub_add_cancel (show t ≤ T by omega)]
    refine ⟨T - t, by omega, ?_, fun e he => ?_⟩
    · rw [show left + t + (T - t) = left + T by omega, h.read (t := T - t) (by omega), hmod]
      exact hbelow
    · have hmod' : (t + e) % period = e % period := by
        rw [add_mod, hr, Nat.zero_add, mod_mod]
      rw [Nat.add_assoc, h.read (t := t + e) (by omega), h.read (t := e) (by omega), hmod']
  · obtain ⟨d, hd, hless, heq⟩ := h.inside (t % period) hr (mod_lt _ (by omega))
    by_cases hshort : t + d < T
    · refine ⟨d, by omega, ?_, fun e he => ?_⟩
      · rw [h.read_add (t := t) (by omega) (by omega)]
        exact hless
      · rw [h.read_add (t := t) (by omega) (by omega)]
        exact heq e he
    · -- The first difference in the copy lies at the end or past it: the last letter differs.
      have hoffset : offset = t % period + (T - t) := by
        have hmod : (t % period + (T - t)) % period = offset := by
          rw [mod_add_mod, Nat.add_sub_cancel' (by omega), hend]
        rw [mod_eq_of_lt (by omega)] at hmod
        exact hmod.symm
      refine ⟨T - t, by omega, ?_, fun e he => ?_⟩
      · rw [show left + t + (T - t) = left + T by omega]
        rw [hoffset, ← Nat.add_assoc] at hbelow
        obtain hlt' | heq' := Nat.lt_or_eq_of_le (show T - t ≤ d by omega)
        · rw [← heq _ hlt']
          exact hbelow
        · rw [heq'] at hbelow ⊢
          exact hbelow.trans hless
      · rw [h.read_add (t := t) (by omega) (by omega)]
        exact heq e (by omega)

/-- The letter compared is greater: the scan starts anew at `right`. -/
theorem above (hn : right + offset < n)
    (habove : Below reversed (x (left + offset)) (x (right + offset))) :
    Scanning reversed x n right (right + 1) 0 1 := by
  have hlt := h.offset_lt
  have hle := h.left_le
  have hcopy : ∀ e < offset, x (right + e) = x (left + e) := by
    intro e he
    have hread := h.read_add (t := right - left) (e := e) (by omega) (by rw [h.dvd]; omega)
    rw [h.dvd, show left + (right - left) = right by omega, Nat.add_zero] at hread
    exact hread
  have hless : ∀ t, t < right - left → Less reversed x n (left + t) right := by
    intro t ht
    have hin := h.copy_le ht
    have hmod := mod_le t period
    obtain hr | hr := Nat.eq_zero_or_pos (t % period)
    · have hread : ∀ e ≤ offset, x (left + t + e) = x (left + e) := by
        intro e he
        rw [h.read_add (t := t) (by omega) (by omega), hr, Nat.add_zero]
      exact ⟨offset, by omega, hn, (hread offset le_rfl).symm ▸ habove,
        fun e he => (hread e he.le).trans (hcopy e he).symm⟩
    · obtain ⟨d, hd, hbelow, heq⟩ := h.inside (t % period) hr (mod_lt _ (by omega))
      have hread : ∀ e ≤ d, x (left + t + e) = x (left + t % period + e) :=
        fun e he => h.read_add (by omega) (by omega)
      by_cases hshort : d < offset
      · exact ⟨d, by omega, by omega, by rw [hread d le_rfl, hcopy d hshort]; exact hbelow,
          fun e he => by rw [hread e he.le, heq e he, hcopy e (he.trans hshort)]⟩
      · refine ⟨offset, by omega, hn, ?_, fun e he => ?_⟩
        · rw [hread offset (by omega)]
          obtain hlt' | heq' := Nat.lt_or_eq_of_le (show offset ≤ d by omega)
          · rw [heq offset hlt']
            exact habove
          · rw [heq'] at habove ⊢
            exact hbelow.trans habove
        · rw [hread e (by omega), heq e (by omega), hcopy e he]
  refine ⟨Nat.one_pos, by omega, le_rfl, mod_one _, fun k hk hkn => by omega, fun i hi => ?_,
    fun t ht0 ht1 => by omega⟩
  by_cases hleft : i < left
  · exact (h.before i hleft).trans (hless 0 (by omega))
  · have hi' := hless (i - left) (by omega)
    rw [show left + (i - left) = i by omega] at hi'
    exact hi'

/-- **The scan at the end of the word** has the start and the least period of the maximal suffix. -/
theorem finish (hend : right + offset = n) :
    Maximal reversed x n left ∧ LeastPeriod x n left period := by
  have hlt := h.offset_lt
  have hle := h.left_le
  refine ⟨⟨by omega, h.before, ?_⟩, ⟨by omega, by omega, ?_, ?_⟩⟩
  · intro i hi d hd hagree hcontra
    obtain ⟨t, rfl⟩ : ∃ t, i = left + t := ⟨i - left, by omega⟩
    obtain hr | hr := Nat.eq_zero_or_pos (t % period)
    · have hmod : (t + d) % period = d % period := by
        rw [add_mod, hr, Nat.zero_add, mod_mod]
      rw [Nat.add_assoc, h.read (t := t + d) (by omega), hmod, ← h.read (t := d) (by omega)] at hcontra
      exact Below.irrefl hcontra
    · obtain ⟨d', hd', hbelow, heq⟩ := h.inside (t % period) hr (mod_lt _ (by omega))
      obtain hlt' | rfl | hgt := lt_trichotomy d d'
      · rw [h.read_add (t := t) (by omega) (by omega), heq d hlt'] at hcontra
        exact Below.irrefl hcontra
      · rw [h.read_add (t := t) (by omega) (by omega)] at hcontra
        exact hcontra.asymm hbelow
      · have hsame := hagree d' hgt
        rw [h.read_add (t := t) (by omega) (by omega)] at hsame
        rw [hsame] at hbelow
        exact Below.irrefl hbelow
  · intro k hk hkn
    exact h.periodic k hk (by omega)
  · intro q hq hperiod
    by_contra hless
    obtain ⟨d, hd, hbelow, -⟩ := h.inside q hq (by omega)
    have hsame := hperiod (left + d) (by omega) (by omega)
    rw [show left + d + q = left + q + d by omega] at hsame
    rw [hsame] at hbelow
    exact Below.irrefl hbelow

end Scanning

end Words

/-!
## Borders of words

The longest start of a word that ends at a position of a text, as a search by borders keeps it: it goes
on by a letter from the longest start that the letter continues (`Continues.longest`), which is found by
falling back from a start to its border (`Continues.fall`). A border of a start of the word is a start
that ends there in the word read from its second letter on.
-/

namespace Words

universe u

variable {α : Type u}

/-- The first `m` letters of the word end before `at'` in the text. -/
def EndsAt (x t : ℕ → α) (at' m : ℕ) : Prop := m ≤ at' ∧ ∀ k < m, t (at' - m + k) = x k

/-- The longest start of the word, up to `n` letters, that ends before `at'` in the text. -/
structure Longest (x t : ℕ → α) (n at' m : ℕ) : Prop where
  le : m ≤ n
  ends : EndsAt x t at' m
  longest : ∀ b ≤ n, EndsAt x t at' b → b ≤ m

/-- The word from its second letter on. -/
def rest (x : ℕ → α) (k : ℕ) : α := x (k + 1)

/-- `m` letters end before `at'`, and no fewer letters than those that the next letter continues. -/
structure Continues (x t : ℕ → α) (n at' m : ℕ) : Prop where
  lt : m < n
  ends : EndsAt x t at' m
  most : ∀ b < n, EndsAt x t at' b → t at' = x b → b ≤ m

variable {x t : ℕ → α} {n at' m b : ℕ}

theorem endsAt_zero : EndsAt x t at' 0 := ⟨Nat.zero_le _, fun k hk => by omega⟩

theorem longest_zero : Longest x t n 0 0 := ⟨Nat.zero_le _, endsAt_zero, fun _ _ h => h.1⟩

/-- A start with one letter more ends one letter on. -/
theorem endsAt_succ : EndsAt x t (at' + 1) (m + 1) ↔ EndsAt x t at' m ∧ t at' = x m := by
  constructor
  · rintro ⟨hle, hread⟩
    refine ⟨⟨by omega, fun k hk => ?_⟩, ?_⟩
    · have hsame := hread k (by omega)
      rw [show at' + 1 - (m + 1) + k = at' - m + k by omega] at hsame
      exact hsame
    · have hsame := hread m (by omega)
      rw [show at' + 1 - (m + 1) + m = at' by omega] at hsame
      exact hsame
  · rintro ⟨⟨hle, hread⟩, hlast⟩
    refine ⟨by omega, fun k hk => ?_⟩
    obtain hlt | rfl := Nat.lt_or_eq_of_le (Nat.le_of_lt_succ hk)
    · rw [show at' + 1 - (m + 1) + k = at' - m + k by omega]
      exact hread k hlt
    · rw [show at' + 1 - (k + 1) + k = at' by omega]
      exact hlast

/-- A border of what ends at a position ends there. -/
theorem EndsAt.border (h : EndsAt x t at' m) (hm : 0 < m) (hb : EndsAt x (rest x) (m - 1) b) :
    EndsAt x t at' b := by
  obtain ⟨hle, hread⟩ := h
  obtain ⟨hle', hread'⟩ := hb
  refine ⟨by omega, fun k hk => ?_⟩
  have hthere := hread (m - b + k) (by omega)
  rw [show at' - m + (m - b + k) = at' - b + k by omega] at hthere
  have hborder := hread' k hk
  unfold rest at hborder
  rw [show m - 1 - b + k + 1 = m - b + k by omega] at hborder
  exact hthere.trans hborder

/-- A shorter start that ends at the same position is a border. -/
theorem EndsAt.isBorder (h : EndsAt x t at' m) (hb : EndsAt x t at' b) (hlt : b < m) :
    EndsAt x (rest x) (m - 1) b := by
  obtain ⟨hle, hread⟩ := h
  obtain ⟨hle', hread'⟩ := hb
  refine ⟨by omega, fun k hk => ?_⟩
  have hthere := hread (m - b + k) (by omega)
  rw [show at' - m + (m - b + k) = at' - b + k by omega, hread' k hk] at hthere
  unfold rest
  rw [show m - 1 - b + k + 1 = m - b + k by omega]
  exact hthere.symm

theorem Longest.continues (h : Longest x t n at' m) (hlt : m < n) : Continues x t n at' m :=
  ⟨hlt, h.ends, fun b hb hends _ => h.longest b hb.le hends⟩

namespace Continues

/-- A start that the letter does not continue falls back to its longest border. -/
theorem fall (h : Continues x t n at' m) (hm : 0 < m) (hdiffer : t at' ≠ x m)
    (hb : Longest x (rest x) n (m - 1) b) : Continues x t n at' b ∧ b < m := by
  have hlt := hb.ends.1
  refine ⟨⟨by have := h.lt; omega, h.ends.border hm hb.ends, fun c hc hends hnext => ?_⟩, by omega⟩
  have hle := h.most c hc hends hnext
  have hne : c ≠ m := fun heq => hdiffer (heq ▸ hnext)
  exact hb.longest c hc.le (h.ends.isBorder hends (by omega))

/-- **The letter read** continues the start, or none. -/
theorem longest (h : Continues x t n at' m) :
    (t at' = x m → Longest x t n (at' + 1) (m + 1)) ∧
      (m = 0 → t at' ≠ x m → Longest x t n (at' + 1) m) := by
  refine ⟨fun hnext => ⟨h.lt, endsAt_succ.mpr ⟨h.ends, hnext⟩, fun b hb hends => ?_⟩, ?_⟩
  · cases b with
    | zero => exact Nat.zero_le _
    | succ b =>
      obtain ⟨hends', hnext'⟩ := endsAt_succ.mp hends
      exact Nat.succ_le_succ (h.most b hb hends' hnext')
  · rintro rfl hdiffer
    refine ⟨Nat.zero_le _, endsAt_zero, fun b hb hends => ?_⟩
    cases b with
    | zero => exact le_rfl
    | succ b =>
      obtain ⟨hends', hnext'⟩ := endsAt_succ.mp hends
      obtain rfl := Nat.le_zero.mp (h.most b hb hends' hnext')
      exact absurd hnext' hdiffer

end Continues

end Words
