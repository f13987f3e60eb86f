import HdLang.Lib.Binary64
import HdLang.Num.Model
import Mathlib.Data.Nat.Bitwise

/-!
# The remainder of floats

`float_rem_f64` on bit patterns: a shift-and-subtract loop over integer significands. The operators on
`u64` panic as they do in a debug build, so that a result is also the absence of a panic.
-/

namespace HdLang.Num

open Binary64 Nat

/-! ### Operators of `u64` -/

/-- `a - b` -/
def sub64 (a b : ℕ) : Except Stop ℕ := if b ≤ a then .ok (a - b) else .error overflow

/-- `a << count` -/
def shl64 (a count : ℕ) : Except Stop ℕ :=
  if count < 64 then .ok ((a <<< count) % 2 ^ 64) else .error invalidShift

/-- `a >> count` -/
def shr64 (a count : ℕ) : Except Stop ℕ :=
  if count < 64 then .ok (a >>> count) else .error invalidShift

/-- `a.leading_zeros()` -/
def leadingZeros64 (a : ℕ) : ℕ := 64 - a.size

/-! ### The function -/

def normalizedFloat (bits : ℕ) : Except Stop (ℤ × ℕ) :=
  let exponent := (bits >>> 52) &&& 2047
  let significand := bits &&& 4503599627370495
  if exponent = 0 then do
    let shift ← sub64 (leadingZeros64 significand) 11
    let significand ← shl64 significand shift
    return (1 - (shift : ℤ), significand)
  else .ok (exponent, significand ||| 4503599627370496)

/-- One subtraction of the divisor; `none` where nothing is left. -/
def subtract (ySignificand significand : ℕ) : Except Stop (Option ℕ) :=
  if ySignificand ≤ significand then do
    let significand ← sub64 significand ySignificand
    return if significand = 0 then none else some significand
  else .ok (some significand)

/-- The `while` loop of `float_rem_f64`, from an exponent and a significand. -/
def reduce (yExponent : ℤ) (ySignificand : ℕ) (exponent : ℤ) (significand : ℕ) :
    Except Stop (Option (ℤ × ℕ)) :=
  if yExponent < exponent then do
    match ← subtract ySignificand significand with
    | none => return none
    | some significand =>
      let significand ← shl64 significand 1
      reduce yExponent ySignificand (exponent - 1) significand
  else .ok (some (exponent, significand))
termination_by (exponent - yExponent).toNat
decreasing_by omega

/-- The bits of what the loop left, without the sign. -/
def pack (exponent : ℤ) (significand : ℕ) : Except Stop ℕ := do
  let shift ← sub64 (leadingZeros64 significand) 11
  let significand ← shl64 significand shift
  let exponent := exponent - (shift : ℤ)
  if 0 < exponent then do
    let fraction ← sub64 significand 4503599627370496
    let high ← shl64 exponent.toNat 52
    return fraction ||| high
  else shr64 significand (1 - exponent).toNat

/-- `float_rem_f64` -/
def floatRem (x y : BitVec 64) : Except Stop (BitVec 64) := do
  let sign := x &&& 9223372036854775808#64
  let xMagnitude := x <<< 1
  let yMagnitude := y <<< 1
  let infinityMagnitude := 18437736874454810624#64
  if yMagnitude = 0 ∨ infinityMagnitude < yMagnitude ∨ infinityMagnitude ≤ xMagnitude then
    return 9221120237041090560#64
  else if xMagnitude ≤ yMagnitude then
    return if xMagnitude = yMagnitude then sign else x
  else
    let (xExponent, xSignificand) ← normalizedFloat x.toNat
    let (yExponent, ySignificand) ← normalizedFloat y.toNat
    match ← reduce yExponent ySignificand xExponent xSignificand with
    | none => return sign
    | some (exponent, significand) =>
      match ← subtract ySignificand significand with
      | none => return sign
      | some significand =>
        let bits ← pack exponent significand
        return BitVec.ofNat 64 bits ||| sign

/-- What the remainder of two patterns is. -/
structure IsRemainder (x y r : ℕ) : Prop where
  finite : IsFinite x → IsFinite y → value y ≠ 0 →
    IsFinite r ∧ value r = value x - value y * truncate (value x / value y) ∧
      (value r = 0 → negative r = negative x)
  infinite : IsFinite x → IsInfinite y → r = x
  otherwise : ¬ (IsFinite x ∧ (IsInfinite y ∨ IsFinite y ∧ value y ≠ 0)) → IsNaN r

/-! ### Normalised operands -/

theorem size_significand {s : ℕ} (h0 : s ≠ 0) (h : s < 2 ^ 53) :
    1 ≤ s.size ∧ s.size ≤ 53 ∧ 2 ^ (s.size - 1) ≤ s ∧ s < 2 ^ s.size := by
  have hpos : 1 ≤ s.size := size_pos.mpr (pos_of_ne_zero h0)
  exact ⟨hpos, size_le.mpr h, lt_size.mp (by omega), lt_size_self s⟩

/-- The shift that normalises a significand keeps all its bits. -/
theorem normalize_eq {s : ℕ} (h0 : s ≠ 0) (h : s < 2 ^ 53) :
    ∃ shift, shift ≤ 52 ∧ sub64 (leadingZeros64 s) 11 = .ok shift ∧
      shl64 s shift = .ok (s * 2 ^ shift) ∧ 2 ^ 52 ≤ s * 2 ^ shift ∧ s * 2 ^ shift < 2 ^ 53 := by
  obtain ⟨hpos, hle, hlow, hhigh⟩ := size_significand h0 h
  have hshift : 11 ≤ leadingZeros64 s := by
    unfold leadingZeros64
    omega
  have heq : leadingZeros64 s - 11 = 53 - s.size := by
    unfold leadingZeros64
    omega
  have hlow' : 2 ^ 52 ≤ s * 2 ^ (53 - s.size) := by
    calc 2 ^ 52 = 2 ^ (s.size - 1) * 2 ^ (53 - s.size) := by rw [← pow_add]; congr 1; omega
      _ ≤ s * 2 ^ (53 - s.size) := mul_le_mul_right _ hlow
  have hhigh' : s * 2 ^ (53 - s.size) < 2 ^ 53 := by
    calc s * 2 ^ (53 - s.size) < 2 ^ s.size * 2 ^ (53 - s.size) :=
          mul_lt_mul_of_pos_right hhigh (by positivity)
      _ = 2 ^ 53 := by rw [← pow_add]; congr 1; omega
  refine ⟨53 - s.size, by omega, ?_, ?_, hlow', hhigh'⟩
  · rw [sub64, if_pos hshift, heq]
  · rw [shl64, if_pos (by omega), shiftLeft_eq, mod_eq_of_lt (by omega)]

/-- A normalised operand has 53 bits, and the value of the pattern. -/
theorem normalizedFloat_eq {bits : ℕ} (hfinite : IsFinite bits) (hne : magnitude bits ≠ 0) :
    ∃ (e : ℤ) (s : ℕ), normalizedFloat bits = .ok (e, s) ∧ 2 ^ 52 ≤ s ∧ s < 2 ^ 53 ∧
      -51 ≤ e ∧ e ≤ 2046 ∧ magnitude bits * 2 ^ 52 = s * 2 ^ (e + 51).toNat := by
  have hexponent : (bits >>> 52) &&& 2047 = exponent bits := by
    rw [Nat.shiftRight_eq_div_pow]
    exact Nat.and_two_pow_sub_one_eq_mod (bits / 2 ^ 52) 11
  have hfraction : bits &&& 4503599627370495 = fraction bits :=
    Nat.and_two_pow_sub_one_eq_mod bits 52
  have hlt := fraction_lt bits
  unfold normalizedFloat
  dsimp only
  rw [hexponent, hfraction]
  split
  · next hzero =>
    have hmagnitude : magnitude bits = fraction bits := by rw [magnitude, if_pos hzero]
    rw [hmagnitude] at hne ⊢
    obtain ⟨shift, hshift, hsub, hshl, hlow, hhigh⟩ := normalize_eq hne (by omega)
    refine ⟨1 - shift, fraction bits * 2 ^ shift, ?_, hlow, hhigh, by omega, by omega, ?_⟩
    · rw [hsub]
      show (shl64 (fraction bits) shift >>= _) = _
      rw [hshl]
      rfl
    · rw [mul_assoc, ← pow_add]
      congr 2
      omega
  · next hzero =>
    have hor : fraction bits ||| 4503599627370496 = 2 ^ 52 + fraction bits := by
      rw [Nat.or_comm]
      exact (Nat.two_pow_add_eq_or_of_lt hlt 1).symm
    unfold IsFinite at hfinite
    refine ⟨exponent bits, 2 ^ 52 + fraction bits, by rw [hor], by omega, by omega, by omega,
      by omega, ?_⟩
    rw [magnitude, if_neg hzero, mul_assoc, ← pow_add]
    congr 2
    omega

/-! ### The loop -/

theorem subtract_eq {ys s : ℕ} (h : s < 2 * ys) :
    subtract ys s = .ok (if s % ys = 0 ∧ s ≠ 0 then none else some (s % ys)) := by
  unfold subtract
  split
  · next hle =>
    have hmod : s % ys = s - ys := by rw [mod_eq_sub_mod hle, mod_eq_of_lt (by omega)]
    have hne : s ≠ 0 := by omega
    rw [sub64, if_pos hle, hmod]
    by_cases hzero : s - ys = 0
    · rw [if_pos ⟨hzero, hne⟩]
      show Except.ok _ = _
      rw [if_pos hzero]
    · rw [if_neg fun hboth => hzero hboth.1]
      show Except.ok _ = _
      rw [if_neg hzero]
  · next hlt =>
    have hmod : s % ys = s := mod_eq_of_lt (by omega)
    rw [hmod, if_neg fun hboth => hboth.2 hboth.1]

/-- A remainder doubled is a remainder of the double. -/
theorem double_mod (s ys n : ℕ) : s % ys * 2 * 2 ^ n % ys = s * 2 ^ (n + 1) % ys := by
  rw [mul_assoc, mod_mul_mod, pow_succ, mul_comm (2 ^ n) 2]

/-- **The loop** leaves the significand modulo the divisor's, at the divisor's exponent; it ends early
only where the remainder is zero. -/
theorem reduce_eq {ye : ℤ} {ys : ℕ} (hys : ys < 2 ^ 53) (n : ℕ) :
    ∀ s, s ≠ 0 → s < 2 * ys →
      (reduce ye ys (ye + n) s = .ok none ∧ s * 2 ^ n % ys = 0) ∨
        ∃ s', reduce ye ys (ye + n) s = .ok (some (ye, s')) ∧ s' ≠ 0 ∧ s' < 2 * ys ∧
          s' % ys = s * 2 ^ n % ys := by
  induction n with
  | zero =>
    intro s h0 hs
    refine .inr ⟨s, ?_, h0, hs, by rw [pow_zero, mul_one]⟩
    rw [cast_zero, add_zero, reduce, if_neg (lt_irrefl ye)]
  | succ n ih =>
    intro s h0 hs
    have hstep : reduce ye ys (ye + (n + 1 : ℕ)) s = (if s % ys = 0 ∧ s ≠ 0 then .ok none
          else shl64 (s % ys) 1 >>= reduce ye ys (ye + n)) := by
      have hexponent : ye + (n + 1 : ℕ) - 1 = ye + n := by
        push_cast
        ring
      rw [reduce, if_pos (by omega), subtract_eq hs, hexponent]
      by_cases hzero : s % ys = 0 ∧ s ≠ 0
      · rw [if_pos hzero, if_pos hzero]
        rfl
      · rw [if_neg hzero, if_neg hzero]
        rfl
    by_cases hzero : s % ys = 0
    · refine .inl ⟨by rw [hstep, if_pos ⟨hzero, h0⟩], ?_⟩
      rw [mul_mod, hzero, zero_mul, zero_mod]
    · have hlt : s % ys < ys := mod_lt _ (by omega)
      have hshl : shl64 (s % ys) 1 = .ok (s % ys * 2) := by
        rw [shl64, if_pos (by decide), shiftLeft_eq, mod_eq_of_lt (by omega), pow_one]
      rw [hstep, if_neg fun hboth => hzero hboth.1, hshl, ← double_mod s ys n]
      exact ih (s % ys * 2) (by omega) (by omega)

/-! ### The result -/

/-- **Packing is exact**: where the significand at the exponent is a number of units, the pattern has
that magnitude. The right shift into a subnormal result loses no bit. -/
theorem pack_eq {e : ℤ} {s m : ℕ} (h0 : s ≠ 0) (hs : s < 2 ^ 53) (hlow : -51 ≤ e) (hhigh : e ≤ 2046)
    (h : m * 2 ^ 52 = s * 2 ^ (e + 51).toNat) :
    ∃ bits, pack e s = .ok bits ∧ bits < 2 ^ 63 ∧ IsFinite bits ∧ magnitude bits = m := by
  obtain ⟨shift, hshift, hsub, hshl, hnormal, hnormal'⟩ := normalize_eq h0 hs
  -- The units, with the significand normalised.
  have hscaled : m * 2 ^ (52 + shift) = s * 2 ^ shift * 2 ^ (e + 51).toNat := by
    rw [pow_add, ← mul_assoc, h]
    ring
  have hpack : pack e s =
      if 0 < e - (shift : ℤ) then do
        let fraction ← sub64 (s * 2 ^ shift) 4503599627370496
        let high ← shl64 (e - (shift : ℤ)).toNat 52
        return fraction ||| high
      else shr64 (s * 2 ^ shift) (1 - (e - (shift : ℤ))).toNat := by
    unfold pack
    rw [hsub]
    show (shl64 s shift >>= _) = _
    rw [hshl]
    rfl
  generalize s * 2 ^ shift = t at hscaled hnormal hnormal' hpack
  rw [hpack]
  split
  · next hpos =>
    obtain ⟨k, hk⟩ : ∃ k : ℕ, e - (shift : ℤ) = k := ⟨(e - shift).toNat, by omega⟩
    rw [hk, Int.toNat_natCast]
    have hm : m = t * 2 ^ (k - 1) := by
      apply Nat.eq_of_mul_eq_mul_right (show 0 < 2 ^ (52 + shift) by positivity)
      rw [hscaled, mul_assoc, ← pow_add]
      congr 2
      omega
    obtain ⟨hmagnitude, hfinite, hlt⟩ :=
      magnitude_normal hnormal hnormal' (show 1 ≤ k by omega) (show k < 2047 by omega)
    have hfit : k * 2 ^ 52 < 2 ^ 64 := by
      have hk' : k ≤ 2046 := by omega
      exact lt_of_le_of_lt (Nat.mul_le_mul_right _ hk') (by decide)
    have hshl' : shl64 k 52 = .ok (k * 2 ^ 52) := by
      rw [shl64, if_pos (by decide), Nat.shiftLeft_eq, Nat.mod_eq_of_lt hfit]
    have hor : (t - 4503599627370496) ||| (k * 2 ^ 52) = k * 2 ^ 52 + (t - 2 ^ 52) := by
      rw [Nat.or_comm, mul_comm]
      exact (Nat.two_pow_add_eq_or_of_lt (show t - 4503599627370496 < 2 ^ 52 by omega) k).symm
    refine ⟨k * 2 ^ 52 + (t - 2 ^ 52), ?_, hlt, hfinite, by rw [hmagnitude, hm]⟩
    rw [sub64, if_pos (by omega), hshl', ← hor]
    rfl
  · next hneg =>
    obtain ⟨k, hk⟩ : ∃ k : ℕ, 1 - (e - (shift : ℤ)) = k := ⟨(1 - (e - shift)).toNat, by omega⟩
    rw [hk, Int.toNat_natCast]
    have ht : t = m * 2 ^ k := by
      apply Nat.eq_of_mul_eq_mul_right (show 0 < 2 ^ (e + 51).toNat by positivity)
      rw [← hscaled, mul_assoc, ← pow_add]
      congr 2
      omega
    -- A result below the normal range has at least one unit, so the shift stays within its bits.
    have hm : 1 ≤ m := by
      by_contra hzero
      rw [show m = 0 by omega, zero_mul] at ht
      omega
    have hk' : k < 53 := by
      rw [← Nat.pow_lt_pow_iff_right (show 1 < 2 by decide)]
      exact lt_of_le_of_lt (Nat.le_mul_of_pos_left _ hm) (ht ▸ hnormal')
    have hbits : m < 2 ^ 52 := by
      have hdouble : m * 2 ≤ m * 2 ^ k := Nat.mul_le_mul_left m (Nat.le_self_pow (by omega) 2)
      omega
    refine ⟨m, ?_, by omega, (magnitude_subnormal hbits).2, (magnitude_subnormal hbits).1⟩
    rw [shr64, if_pos (by omega), ht, Nat.shiftRight_eq_div_pow,
      Nat.mul_div_cancel _ (by positivity)]

/-! ### The remainder -/

theorem toNat_shiftLeft_one (x : BitVec 64) : (x <<< 1).toNat = 2 * unsigned x.toNat := by
  rw [BitVec.toNat_shiftLeft, shiftLeft_eq, unsigned]
  omega

theorem toNat_sign (x : BitVec 64) :
    (x &&& 9223372036854775808#64).toNat = if negative x.toNat then 2 ^ 63 else 0 := by
  have hand : x.toNat &&& 2 ^ 63 = 2 ^ 63 * (x.toNat.testBit 63).toNat := by
    rw [Nat.and_comm]
    exact Nat.two_pow_and x.toNat 63
  have hbit : x.toNat.testBit 63 = negative x.toNat := by
    have hlt := x.isLt
    rw [Nat.testBit_eq_decide_div_mod_eq, negative]
    apply decide_eq_decide.mpr
    omega
  rw [BitVec.toNat_and]
  show x.toNat &&& 2 ^ 63 = _
  rw [hand, hbit]
  cases negative x.toNat <;> simp

theorem toNat_or_sign (x : BitVec 64) {bits : ℕ} (hbits : bits < 2 ^ 63) :
    (BitVec.ofNat 64 bits ||| (x &&& 9223372036854775808#64)).toNat =
      bits + if negative x.toNat then 2 ^ 63 else 0 := by
  rw [BitVec.toNat_or, toNat_sign, BitVec.toNat_ofNat, Nat.mod_eq_of_lt (by omega)]
  cases negative x.toNat with
  | false => simp
  | true =>
    rw [if_pos rfl, Nat.or_comm]
    exact ((Nat.two_pow_add_eq_or_of_lt hbits 1).symm.trans (Nat.add_comm _ _))

/-- The sign alone is a zero with the sign of the pattern. -/
theorem sign_zero (x : BitVec 64) :
    IsFinite (x &&& 9223372036854775808#64).toNat ∧
      negative (x &&& 9223372036854775808#64).toNat = negative x.toNat ∧
      magnitude (x &&& 9223372036854775808#64).toNat = 0 := by
  obtain ⟨hunsigned, hnegative⟩ := unsigned_add_sign (show 0 < 2 ^ 63 by decide) (negative x.toNat)
  rw [zero_add] at hunsigned hnegative
  rw [toNat_sign]
  refine ⟨?_, hnegative, magnitude_eq_zero_iff.mpr hunsigned⟩
  rw [isFinite_iff, hunsigned]
  decide

/-- The remainder of finite patterns, from the magnitude and the sign of the result. -/
theorem isRemainder_of_magnitude {x y r : ℕ} (hy : magnitude y ≠ 0) (hxf : IsFinite x)
    (hyf : IsFinite y) (hrf : IsFinite r) (hsign : negative r = negative x)
    (hr : magnitude r = magnitude x % magnitude y) : IsRemainder x y r where
  finite _ _ _ := ⟨hrf, sub_mul_truncate hy hsign hr, fun _ => hsign⟩
  infinite _ h := absurd (hyf.trans_eq h.1.symm) (lt_irrefl _)
  otherwise h := absurd ⟨hxf, .inr ⟨hyf, fun hzero => hy (value_eq_zero_iff.mp hzero)⟩⟩ h

/-- The remainder of two finite patterns, the first greater than the second. -/
theorem floatRem_reduce {x y : BitVec 64} (hx : IsFinite x.toNat) (hy : IsFinite y.toNat)
    (hne : magnitude y.toNat ≠ 0) (h : unsigned y.toNat < unsigned x.toNat) :
    ∃ r, (do
        let (xExponent, xSignificand) ← normalizedFloat x.toNat
        let (yExponent, ySignificand) ← normalizedFloat y.toNat
        match ← reduce yExponent ySignificand xExponent xSignificand with
        | none => return x &&& 9223372036854775808#64
        | some (exponent, significand) =>
          match ← subtract ySignificand significand with
          | none => return x &&& 9223372036854775808#64
          | some significand =>
            let bits ← pack exponent significand
            return BitVec.ofNat 64 bits ||| (x &&& 9223372036854775808#64)) = .ok r ∧
      IsFinite r.toNat ∧ negative r.toNat = negative x.toNat ∧
      magnitude r.toNat = magnitude x.toNat % magnitude y.toNat := by
  have hlt := magnitude_lt h
  obtain ⟨ex, sx, hxn, hsx, hsx', hex, hex', hxm⟩ := normalizedFloat_eq hx (by omega)
  obtain ⟨ey, sy, hyn, hsy, hsy', hey, hey', hym⟩ := normalizedFloat_eq hy hne
  -- The dividend's exponent is at least the divisor's, as its value is.
  have hexponent : ey ≤ ex := by
    by_contra hcontra
    have hpow : 2 * 2 ^ (ex + 51).toNat ≤ 2 ^ (ey + 51).toNat := by
      rw [← pow_succ']
      exact Nat.pow_le_pow_right (by decide) (by omega)
    have hsmall : sx * 2 ^ (ex + 51).toNat ≤ sy * 2 ^ (ey + 51).toNat :=
      calc sx * 2 ^ (ex + 51).toNat ≤ (sy * 2) * 2 ^ (ex + 51).toNat :=
            Nat.mul_le_mul_right _ (by omega)
        _ = sy * (2 * 2 ^ (ex + 51).toNat) := mul_assoc _ _ _
        _ ≤ sy * 2 ^ (ey + 51).toNat := Nat.mul_le_mul_left _ hpow
    rw [← hxm, ← hym] at hsmall
    exact absurd (Nat.le_of_mul_le_mul_right hsmall (by positivity)) (by omega)
  obtain ⟨n, hn⟩ : ∃ n : ℕ, ex = ey + n := ⟨(ex - ey).toNat, by omega⟩
  -- The remainder of the values is the remainder of the significands.
  have hmod : magnitude x.toNat % magnitude y.toNat * 2 ^ 52 =
      sx * 2 ^ n % sy * 2 ^ (ey + 51).toNat := by
    rw [← Nat.mul_mod_mul_right, ← Nat.mul_mod_mul_right, hxm, hym, mul_assoc sx, ← pow_add]
    congr 3
    omega
  have hzero : sx * 2 ^ n % sy = 0 → magnitude x.toNat % magnitude y.toNat = 0 := by
    intro heq
    rw [heq, zero_mul] at hmod
    exact (Nat.mul_eq_zero.mp hmod).resolve_right (by positivity)
  obtain ⟨hsf, hsn, hsm⟩ := sign_zero x
  rw [hxn, hyn, hn]
  obtain ⟨hreduce, hleft⟩ | ⟨s, hreduce, hs0, hs, hleft⟩ :=
    @reduce_eq ey _ hsy' n sx (by omega) (by omega)
  · refine ⟨_, ?_, hsf, hsn, hsm.trans (hzero hleft).symm⟩
    show (reduce ey sy (ey + n) sx >>= _) = _
    rw [hreduce]
    rfl
  · rw [← hleft] at hzero hmod
    by_cases hdone : s % sy = 0
    · refine ⟨_, ?_, hsf, hsn, hsm.trans (hzero hdone).symm⟩
      show (reduce ey sy (ey + n) sx >>= _) = _
      rw [hreduce]
      show (subtract sy s >>= _) = _
      rw [subtract_eq hs, if_pos ⟨hdone, hs0⟩]
      rfl
    · have hlt' : s % sy < sy := Nat.mod_lt _ (by omega)
      obtain ⟨bits, hpack, hbits, hfinite, hmagnitude⟩ := pack_eq hdone (by omega) hey hey' hmod
      obtain ⟨hunsigned, hnegative⟩ := unsigned_add_sign hbits (negative x.toNat)
      rw [← toNat_or_sign x hbits] at hunsigned hnegative
      refine ⟨_, ?_, ?_, hnegative, ?_⟩
      · show (reduce ey sy (ey + n) sx >>= _) = _
        rw [hreduce]
        show (subtract sy s >>= _) = _
        rw [subtract_eq hs, if_neg fun hboth => hdone hboth.1]
        show (pack ey (s % sy) >>= _) = _
        rw [hpack]
        rfl
      · rw [isFinite_iff, hunsigned, ← Nat.mod_eq_of_lt hbits]
        exact isFinite_iff.mp hfinite
      · rw [← magnitude_unsigned, hunsigned, hmagnitude]

/-- **The remainder of floats is exact**: every call returns, with no panic, the pattern of
`x - y * trunc (x / y)`. -/
theorem float_rem_exact (x y : BitVec 64) :
    ∃ r, floatRem x y = .ok r ∧ IsRemainder x.toNat y.toNat r.toNat := by
  have hxm := toNat_shiftLeft_one x
  have hym := toNat_shiftLeft_one y
  have hzero : y <<< 1 = 0 ↔ unsigned y.toNat = 0 := by
    rw [← BitVec.toNat_inj, hym]
    simp
  have hnan : 18437736874454810624#64 < y <<< 1 ↔ IsNaN y.toNat := by
    rw [BitVec.lt_def, hym, isNaN_iff]
    simp only [BitVec.toNat_ofNat]
    omega
  have hfinite : 18437736874454810624#64 ≤ x <<< 1 ↔ ¬ IsFinite x.toNat := by
    rw [BitVec.le_def, hxm, isFinite_iff]
    simp only [BitVec.toNat_ofNat]
    omega
  have hle : x <<< 1 ≤ y <<< 1 ↔ unsigned x.toNat ≤ unsigned y.toNat := by
    rw [BitVec.le_def, hxm, hym]
    omega
  have heq : x <<< 1 = y <<< 1 ↔ unsigned x.toNat = unsigned y.toNat := by
    rw [← BitVec.toNat_inj, hxm, hym]
    omega
  unfold floatRem
  dsimp only
  split
  · next h =>
    -- The divisor is zero or not a number, or the dividend is not finite.
    rw [hzero, hnan, hfinite] at h
    have hno : ¬ (IsFinite x.toNat ∧
        (IsInfinite y.toNat ∨ IsFinite y.toNat ∧ value y.toNat ≠ 0)) := by
      rintro ⟨hx, hy⟩
      rw [Ne, value_eq_zero_iff, magnitude_eq_zero_iff, isInfinite_iff, isFinite_iff] at hy
      rw [isNaN_iff] at h
      obtain h | h | h := h
      · omega
      · omega
      · exact h hx
    exact ⟨_, rfl, fun hx hy h0 => absurd ⟨hx, .inr ⟨hy, h0⟩⟩ hno,
      fun hx hy => absurd ⟨hx, .inl hy⟩ hno, fun _ => isNaN_iff.mpr (by decide)⟩
  · next h =>
    rw [hzero, hnan, hfinite] at h
    have hx : IsFinite x.toNat := by
      by_contra hx
      exact h (.inr (.inr hx))
    have hy0 : magnitude y.toNat ≠ 0 := fun h0 => h (.inl (magnitude_eq_zero_iff.mp h0))
    have hy : ¬ IsNaN y.toNat := fun hy => h (.inr (.inl hy))
    clear h
    split
    · next h =>
      rw [hle] at h
      split
      · next hsame =>
        rw [heq] at hsame
        obtain ⟨hsf, hsn, hsm⟩ := sign_zero x
        have hyf : IsFinite y.toNat := isFinite_iff.mpr (hsame ▸ isFinite_iff.mp hx)
        have hmagnitude : magnitude x.toNat = magnitude y.toNat := by
          rw [← magnitude_unsigned, hsame, magnitude_unsigned]
        refine ⟨_, rfl, isRemainder_of_magnitude hy0 hx hyf hsf hsn ?_⟩
        rw [hsm, hmagnitude, Nat.mod_self]
      · next hdiffer =>
        rw [heq] at hdiffer
        refine ⟨x, rfl, ?_⟩
        by_cases hyf : IsFinite y.toNat
        · apply isRemainder_of_magnitude hy0 hx hyf hx rfl
          exact (Nat.mod_eq_of_lt (magnitude_lt (lt_of_le_of_ne h hdiffer))).symm
        · -- The divisor is infinite.
          have hyi : IsInfinite y.toNat := by
            rw [isNaN_iff] at hy
            rw [isFinite_iff] at hyf
            rw [isInfinite_iff]
            omega
          exact ⟨fun _ hyf' => absurd hyf' hyf, fun _ _ => rfl, fun hno => absurd ⟨hx, .inl hyi⟩ hno⟩
    · next h =>
      rw [hle, not_le] at h
      have hyf : IsFinite y.toNat := isFinite_iff.mpr (h.trans (isFinite_iff.mp hx))
      obtain ⟨r, hr, hrf, hrn, hrm⟩ := floatRem_reduce hx hyf hy0 h
      exact ⟨r, hr, isRemainder_of_magnitude hy0 hx hyf hrf hrn hrm⟩

end HdLang.Num
