import Mathlib.Data.Rat.Floor
import Mathlib.Tactic.Positivity

/-!
# Binary64 patterns

The value of a 64-bit floating-point pattern, in units of the least subnormal number: `magnitude` is a
natural number, so that a remainder of two values is a remainder of naturals
(`sub_mul_truncate`). The magnitude grows with the pattern (`magnitude_lt`).
-/

namespace Binary64

/-- The biased exponent. -/
def exponent (bits : ℕ) : ℕ := bits / 2 ^ 52 % 2048

/-- The fraction. -/
def fraction (bits : ℕ) : ℕ := bits % 2 ^ 52

/-- The sign bit. -/
def negative (bits : ℕ) : Bool := 2 ^ 63 ≤ bits

/-- The pattern without its sign. -/
def unsigned (bits : ℕ) : ℕ := bits % 2 ^ 63

def IsFinite (bits : ℕ) : Prop := exponent bits < 2047

def IsInfinite (bits : ℕ) : Prop := exponent bits = 2047 ∧ fraction bits = 0

def IsNaN (bits : ℕ) : Prop := exponent bits = 2047 ∧ fraction bits ≠ 0

/-- The size of a finite value, in units of `2 ^ -1074`. -/
def magnitude (bits : ℕ) : ℕ :=
  if exponent bits = 0 then fraction bits
  else (2 ^ 52 + fraction bits) * 2 ^ (exponent bits - 1)

/-- The value of a finite pattern. -/
def value (bits : ℕ) : ℚ :=
  (if negative bits then -1 else 1) * (magnitude bits : ℚ) / 2 ^ 1074

/-- The integer part of a number, toward zero. -/
def truncate (q : ℚ) : ℤ := if 0 ≤ q then ⌊q⌋ else ⌈q⌉

variable {bits bits' : ℕ}

theorem exponent_lt (bits : ℕ) : exponent bits < 2048 := Nat.mod_lt _ (by decide)

theorem fraction_lt (bits : ℕ) : fraction bits < 2 ^ 52 := Nat.mod_lt _ (by positivity)

theorem unsigned_eq (bits : ℕ) : unsigned bits = exponent bits * 2 ^ 52 + fraction bits := by
  unfold unsigned exponent fraction
  omega

theorem exponent_unsigned (bits : ℕ) : exponent (unsigned bits) = exponent bits := by
  unfold unsigned exponent
  omega

theorem fraction_unsigned (bits : ℕ) : fraction (unsigned bits) = fraction bits := by
  unfold unsigned fraction
  omega

theorem magnitude_unsigned (bits : ℕ) : magnitude (unsigned bits) = magnitude bits := by
  rw [magnitude, magnitude, exponent_unsigned, fraction_unsigned]

theorem magnitude_eq_zero_iff : magnitude bits = 0 ↔ unsigned bits = 0 := by
  rw [unsigned_eq, magnitude]
  split
  · next h =>
    rw [h]
    omega
  · next h =>
    have hpos : 0 < (2 ^ 52 + fraction bits) * 2 ^ (exponent bits - 1) := by positivity
    omega

/-! The kinds of pattern, from the pattern without its sign. -/

theorem isFinite_iff : IsFinite bits ↔ unsigned bits < 2047 * 2 ^ 52 := by
  have hexponent := exponent_lt bits
  have hfraction := fraction_lt bits
  rw [unsigned_eq, IsFinite]
  omega

theorem isInfinite_iff : IsInfinite bits ↔ unsigned bits = 2047 * 2 ^ 52 := by
  have hexponent := exponent_lt bits
  have hfraction := fraction_lt bits
  rw [unsigned_eq, IsInfinite]
  omega

theorem isNaN_iff : IsNaN bits ↔ 2047 * 2 ^ 52 < unsigned bits := by
  have hexponent := exponent_lt bits
  have hfraction := fraction_lt bits
  rw [unsigned_eq, IsNaN]
  omega

/-- The magnitude of a pattern with a greater exponent is greater. -/
theorem magnitude_lt_of_exponent (h : exponent bits < exponent bits') :
    magnitude bits < magnitude bits' := by
  have hfraction := fraction_lt bits
  have hpow : 2 ^ 52 * 2 ^ exponent bits ≤ magnitude bits' := by
    rw [magnitude, if_neg (by omega)]
    exact Nat.mul_le_mul (by omega) (Nat.pow_le_pow_right (by decide) (by omega))
  refine lt_of_lt_of_le ?_ hpow
  rw [magnitude]
  split
  · next hzero =>
    rw [hzero]
    omega
  · next hzero =>
    obtain ⟨e, he⟩ : ∃ e, exponent bits = e + 1 := ⟨exponent bits - 1, by omega⟩
    have hdouble : 2 ^ 52 * 2 ^ (e + 1) = (2 ^ 52 * 2) * 2 ^ e := by
      rw [Nat.pow_succ 2 e, mul_assoc, mul_comm (2 ^ e) 2]
    rw [he, Nat.add_sub_cancel, hdouble]
    exact Nat.mul_lt_mul_of_pos_right (by omega) (by positivity)

/-- **The magnitude grows with the pattern.** -/
theorem magnitude_lt (h : unsigned bits < unsigned bits') : magnitude bits < magnitude bits' := by
  have hfraction := fraction_lt bits
  have hfraction' := fraction_lt bits'
  rw [unsigned_eq, unsigned_eq] at h
  obtain hlt | heq | hgt := lt_trichotomy (exponent bits) (exponent bits')
  · exact magnitude_lt_of_exponent hlt
  · rw [heq] at h
    rw [magnitude, magnitude, heq]
    split
    · omega
    · exact Nat.mul_lt_mul_of_pos_right (by omega) (by positivity)
  · omega

/-- The pattern of a sign and a magnitude pattern. -/
theorem unsigned_add_sign {p : ℕ} (hp : p < 2 ^ 63) (s : Bool) :
    unsigned (p + if s then 2 ^ 63 else 0) = p ∧ negative (p + if s then 2 ^ 63 else 0) = s := by
  unfold unsigned negative
  cases s with
  | true =>
    rw [if_pos rfl]
    exact ⟨by omega, decide_eq_true (by omega)⟩
  | false =>
    rw [if_neg Bool.false_ne_true]
    exact ⟨by omega, decide_eq_false (by omega)⟩

theorem magnitude_normal {s e : ℕ} (hs : 2 ^ 52 ≤ s) (hs' : s < 2 ^ 53) (he : 1 ≤ e)
    (he' : e < 2047) :
    magnitude (e * 2 ^ 52 + (s - 2 ^ 52)) = s * 2 ^ (e - 1) ∧
      IsFinite (e * 2 ^ 52 + (s - 2 ^ 52)) ∧ e * 2 ^ 52 + (s - 2 ^ 52) < 2 ^ 63 := by
  have hexponent : exponent (e * 2 ^ 52 + (s - 2 ^ 52)) = e := by
    unfold exponent
    omega
  have hfraction : fraction (e * 2 ^ 52 + (s - 2 ^ 52)) = s - 2 ^ 52 := by
    unfold fraction
    omega
  refine ⟨?_, ?_, by omega⟩
  · rw [magnitude, hexponent, hfraction, if_neg (by omega), Nat.add_sub_cancel' hs]
  · rw [IsFinite, hexponent]
    exact he'

theorem magnitude_subnormal {m : ℕ} (hm : m < 2 ^ 52) : magnitude m = m ∧ IsFinite m := by
  have hexponent : exponent m = 0 := by
    unfold exponent
    omega
  have hfraction : fraction m = m := Nat.mod_eq_of_lt hm
  exact ⟨by rw [magnitude, hexponent, if_pos rfl, hfraction], by rw [IsFinite, hexponent]; decide⟩

/-! ### Remainders -/

theorem value_eq_zero_iff : value bits = 0 ↔ magnitude bits = 0 := by
  unfold value
  have hpow : (2 : ℚ) ^ 1074 ≠ 0 := by positivity
  cases negative bits <;> simp [hpow]

/-- The integer part of a quotient of signed naturals. -/
theorem truncate_div {m n : ℕ} (hn : n ≠ 0) (s s' : Bool) :
    truncate (((if s then -1 else 1) * (m : ℚ)) / ((if s' then -1 else 1) * (n : ℚ))) =
      (if s then -1 else 1) * (if s' then -1 else 1) * ((m / n : ℕ) : ℤ) := by
  have hpos : (0 : ℚ) ≤ (m : ℚ) / n := by positivity
  have hfloor : ⌊(m : ℚ) / n⌋ = ((m / n : ℕ) : ℤ) := by
    rw [Rat.floor_natCast_div_natCast]
    exact (Int.natCast_div m n).symm
  have hplus : truncate ((m : ℚ) / n) = ((m / n : ℕ) : ℤ) := by rw [truncate, if_pos hpos, hfloor]
  have hminus : truncate (-((m : ℚ) / n)) = -((m / n : ℕ) : ℤ) := by
    unfold truncate
    split
    · next h =>
      have hzero : (m : ℚ) / n = 0 := le_antisymm (by linarith) hpos
      rw [hzero, neg_zero, Int.floor_zero, ← hfloor, hzero, Int.floor_zero, neg_zero]
    · rw [Int.ceil_neg, hfloor]
  cases s <;> cases s' <;> simp [neg_div, div_neg, hplus, hminus]

/-- **A remainder of values** is a remainder of magnitudes, with the sign of the dividend. -/
theorem sub_mul_truncate {x y r : ℕ} (hy : magnitude y ≠ 0) (hsign : negative r = negative x)
    (hr : magnitude r = magnitude x % magnitude y) :
    value r = value x - value y * truncate (value x / value y) := by
  have hdiv : value x / value y = ((if negative x then -1 else 1) * (magnitude x : ℚ)) /
        ((if negative y then -1 else 1) * (magnitude y : ℚ)) := by
    unfold value
    rw [div_div_div_cancel_right₀ (by positivity)]
  have htruncate := truncate_div (m := magnitude x) hy (negative x) (negative y)
  have hsplit := Nat.div_add_mod (magnitude x) (magnitude y)
  rw [← hr] at hsplit
  generalize magnitude x / magnitude y = q at htruncate hsplit
  have hcast : (magnitude x : ℚ) = magnitude y * q + magnitude r := by exact_mod_cast hsplit.symm
  rw [hdiv, htruncate]
  unfold value
  rw [hsign, hcast]
  generalize (2 : ℚ) ^ 1074 = unit
  -- The quotient's sign cancels the divisor's.
  cases negative x <;> cases negative y <;> simp <;> ring

end Binary64
