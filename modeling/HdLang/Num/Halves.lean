import HdLang.Num.Exact

/-!
# 32-bit words in checked `u64` arithmetic

Code that works on 32-bit words without wrapping operators keeps them in `u64`: it adds, multiplies
and shifts there, where the results fit, and masks the low half back.
-/

namespace HdLang.Num

open BitVec IntType

/-- A `u64`. -/
abbrev U64 : Type := BitVec 64

/-- `a + b` in `u64` -/
def addU64 (a b : U64) : Except Stop U64 := IntType.u64.add a b

/-- `a - b` in `u64` -/
def subU64 (a b : U64) : Except Stop U64 := IntType.u64.sub a b

/-- `a * b` in `u64` -/
def mulU64 (a b : U64) : Except Stop U64 := IntType.u64.mul a b

/-- `a << count` in `u64` -/
def shlU64 (a : U64) (count : ℕ) : Except Stop U64 := IntType.u64.shl a count

/-- `a >> count` in `u64` -/
def shrU64 (a : U64) (count : ℕ) : Except Stop U64 := IntType.u64.shr a count

variable {a b : U64} {count : ℕ}

theorem holds_u64_iff {n : ℤ} : IntType.u64.Holds n ↔ 0 ≤ n ∧ n ≤ 18446744073709551615 := Iff.rfl

theorem toInt_u64 (a : U64) : IntType.u64.toInt a = (a.toNat : ℤ) := rfl

theorem addU64_eq (h : a.toNat + b.toNat < 2 ^ 64) : addU64 a b = .ok (a + b) := by
  have hfit : u64.Holds (u64.toInt a + u64.toInt b) := by
    rw [toInt_u64, toInt_u64, holds_u64_iff]
    omega
  refine (fit_eq hfit).trans (congrArg _ ?_)
  exact (ofInt_add ..).trans (congrArg₂ (· + ·) (ofInt_toInt _) (ofInt_toInt _))

theorem mulU64_eq (h : a.toNat * b.toNat < 2 ^ 64) : mulU64 a b = .ok (a * b) := by
  have hfit : u64.Holds (u64.toInt a * u64.toInt b) := by
    rw [toInt_u64, toInt_u64, holds_u64_iff, ← Int.natCast_mul]
    omega
  refine (fit_eq hfit).trans (congrArg _ ?_)
  exact (ofInt_mul ..).trans (congrArg₂ (· * ·) (ofInt_toInt _) (ofInt_toInt _))

theorem shlU64_eq (h : count < 64) : shlU64 a count = .ok (a <<< count) := if_pos h

theorem shrU64_eq (h : count < 64) : shrU64 a count = .ok (a >>> count) := if_pos h

/-- A 32-bit word as a `u64`. -/
def wide (w : BitVec 32) : U64 := w.setWidth 64

/-- The low half of a `u64`. -/
def half (a : U64) : BitVec 32 := a.setWidth 32

theorem toNat_wide (w : BitVec 32) : (wide w).toNat = w.toNat := toNat_setWidth_of_le (by decide)

theorem toNat_wide_lt (w : BitVec 32) : (wide w).toNat < 2 ^ 32 := toNat_wide w ▸ w.isLt

theorem addU64_wide (v w : BitVec 32) : addU64 (wide v) (wide w) = .ok (wide v + wide w) := by
  have hv := toNat_wide_lt v
  have hw := toNat_wide_lt w
  exact addU64_eq (by omega)

theorem mulU64_wide (v w : BitVec 32) : mulU64 (wide v) (wide w) = .ok (wide v * wide w) :=
  mulU64_eq (lt_of_lt_of_eq (Nat.mul_lt_mul'' (toNat_wide_lt v) (toNat_wide_lt w)) (by decide))

@[simp] theorem half_wide (w : BitVec 32) : half (wide w) = w := by simp [half, wide]

theorem half_add (a b : U64) : half (a + b) = half a + half b := setWidth_add _ _ (by decide)

theorem half_mul (a b : U64) : half (a * b) = half a * half b := setWidth_mul _ _ (by decide)

theorem and_mask (a : U64) : a &&& 0xFFFFFFFF = wide (half a) := by
  apply eq_of_toNat_eq
  rw [toNat_wide, half, toNat_setWidth, toNat_and]
  exact Nat.and_two_pow_sub_one_eq_mod a.toNat 32

@[simp] theorem wide_xor (v w : BitVec 32) : wide v ^^^ wide w = wide (v ^^^ w) := by
  simp [wide]

theorem half_shiftLeft (w : BitVec 32) (k : ℕ) : half (wide w <<< k) = w <<< k := by
  ext i hi
  have hlt : i - k < 64 := by omega
  have hlt' : i < 64 := by omega
  rw [half, wide, getElem_setWidth, getLsbD_shiftLeft, getLsbD_setWidth, getElem_shiftLeft,
    decide_eq_true hlt, decide_eq_true hlt', Bool.true_and, Bool.true_and,
    getLsbD_eq_getElem]

theorem half_shiftRight (w : BitVec 32) (k : ℕ) : half (wide w >>> k) = w >>> k := by
  ext i hi
  simp only [half, wide, getElem_setWidth, getLsbD_ushiftRight, getLsbD_setWidth,
    getElem_ushiftRight]
  by_cases hlt : k + i < 64
  · simp [hlt]
  · have hge : 32 ≤ k + i := by omega
    rw [getLsbD_of_ge w _ hge, Bool.and_false]

theorem half_rotate (w : BitVec 32) {k : ℕ} (hk : k < 32) :
    half ((wide w <<< k) ||| (wide w >>> (32 - k))) = w.rotateLeft k := by
  rw [rotateLeft_def, Nat.mod_eq_of_lt hk, ← half_shiftLeft, ← half_shiftRight]
  exact setWidth_or

theorem wide_high (a : U64) : wide (half (a >>> 32)) = a >>> 32 := by
  apply eq_of_toNat_eq
  have hlt := a.isLt
  rw [toNat_wide, half, toNat_setWidth, toNat_ushiftRight, Nat.shiftRight_eq_div_pow]
  omega

theorem toNat_mul_wide (v w : BitVec 32) : (wide v * wide w).toNat = v.toNat * w.toNat := by
  have hlt : v.toNat * w.toNat < 2 ^ 64 :=
    lt_of_lt_of_eq (Nat.mul_lt_mul'' v.isLt w.isLt) (by decide)
  rw [BitVec.toNat_mul, toNat_wide, toNat_wide, Nat.mod_eq_of_lt hlt]

end HdLang.Num
