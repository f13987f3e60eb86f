import Mathlib.Data.List.Basic
import Mathlib.Data.Nat.Digits.Defs
import Mathlib.Data.Nat.Size

/-!
# Numerals

Numbers in digits: of any base, in bytes of a fixed number, and in bytes as many as they need.
-/

/-!
## Positional numerals

`value B ds` is the number that the digits `ds` write in base `B`, the most significant first. A
numeral of a given length whose digits are below the base is determined by its value.
-/

namespace Positional

open List

/-- The number that the digits write, the most significant first. -/
def value (B : ℕ) (ds : List ℕ) : ℕ := Nat.ofDigits B ds.reverse

variable {B : ℕ} {ds es : List ℕ}

@[simp] theorem value_nil : value B [] = 0 := rfl

theorem value_append : value B (ds ++ es) = value B ds * B ^ es.length + value B es := by
  unfold value
  rw [reverse_append, Nat.ofDigits_append, length_reverse]
  ring

@[simp] theorem value_singleton (d : ℕ) : value B [d] = d := by simp [value]

theorem value_concat (d : ℕ) : value B (ds ++ [d]) = value B ds * B + d := by
  rw [value_append, value_singleton, length_singleton, pow_one]

theorem value_cons (d : ℕ) : value B (d :: ds) = d * B ^ ds.length + value B ds := by
  rw [← singleton_append, value_append, value_singleton]

/-- Numerals of one length and one value have the same digits. -/
theorem value_inj (hB : 1 < B) (hlen : ds.length = es.length) (hds : ∀ d ∈ ds, d < B)
    (hes : ∀ d ∈ es, d < B) (h : value B ds = value B es) : ds = es := by
  have hrev : ds.reverse = es.reverse := by
    apply Nat.ofDigits_inj_of_len_eq hB
    · rw [length_reverse, length_reverse, hlen]
    · exact fun d hd => hds d (mem_reverse.mp hd)
    · exact fun d hd => hes d (mem_reverse.mp hd)
    · exact h
  exact reverse_injective hrev

end Positional

/-!
## Little-endian numbers

`toLe k n` is the number `n` in `k` bytes, the low byte first, and `ofLe` reads such bytes back. Each
is the other's inverse on numbers that fit and on lists of that length.
-/

namespace LittleEndian

/-- The low `k` bytes of `n`. -/
@[grind =] def toLe : ℕ → ℕ → List UInt8
  | 0, _ => []
  | k + 1, n => UInt8.ofNat n :: toLe k (n / 256)

/-- The number that the bytes write. -/
@[grind =] def ofLe : List UInt8 → ℕ
  | [] => 0
  | b :: bs => b.toNat + 256 * ofLe bs

@[simp] theorem length_toLe (k n : ℕ) : (toLe k n).length = k := by
  induction k generalizing n with
  | zero => rfl
  | succ k ih => rw [toLe, List.length_cons, ih]

theorem ofLe_toLe {k n : ℕ} (h : n < 256 ^ k) : ofLe (toLe k n) = n := by
  induction k generalizing n with
  | zero =>
    rw [pow_zero] at h
    rw [toLe, ofLe]
    omega
  | succ k ih =>
    have hdiv : n / 256 < 256 ^ k := by
      rw [pow_succ] at h
      exact Nat.div_lt_of_lt_mul (by rwa [Nat.mul_comm] at h)
    rw [toLe, ofLe, ih hdiv, UInt8.toNat_ofNat']
    exact Nat.mod_add_div n 256

theorem ofLe_lt (bs : List UInt8) : ofLe bs < 256 ^ bs.length := by
  induction bs with
  | nil => simp [ofLe]
  | cons b bs ih =>
    have hb : b.toNat < 256 := UInt8.toNat_lt b
    rw [ofLe, List.length_cons, pow_succ]
    calc
      b.toNat + 256 * ofLe bs < 256 + 256 * ofLe bs := Nat.add_lt_add_right hb _
      _ = (ofLe bs + 1) * 256 := by ring
      _ ≤ 256 ^ bs.length * 256 := Nat.mul_le_mul_right 256 ih

theorem toLe_ofLe (bs : List UInt8) : toLe bs.length (ofLe bs) = bs := by
  induction bs with
  | nil => rfl
  | cons b bs ih =>
    have hb : b.toNat < 256 := UInt8.toNat_lt b
    have hhead : UInt8.ofNat (b.toNat + 256 * ofLe bs) = b := by
      apply UInt8.toNat.inj
      rw [UInt8.toNat_ofNat', Nat.add_mul_mod_self_left, Nat.mod_eq_of_lt hb]
    have htail : (b.toNat + 256 * ofLe bs) / 256 = ofLe bs := by omega
    rw [ofLe, List.length_cons, toLe, hhead, htail, ih]

end LittleEndian

/-!
## Base-128 numbers

An unsigned LEB128 number is a list of bytes with seven bits of the number each, the low ones
first; every byte but the last has its top bit set. `encode` writes the shortest such list. A reader
sees more: `Form` says which lists are numbers at all, and `value` what they stand for.
-/

namespace Leb128

open List

/-- The shortest bytes of `n`. -/
def encode (n : ℕ) : List UInt8 :=
  if n < 128 then [UInt8.ofNat n] else UInt8.ofNat (n % 128 + 128) :: encode (n / 128)

/-- The number that the low seven bits of the bytes write. -/
def value : List UInt8 → ℕ
  | [] => 0
  | b :: bs => b.toNat % 128 + 128 * value bs

/-- The bytes are one number: the last byte, and no other, has its top bit clear. -/
def Form : List UInt8 → Prop
  | [] => False
  | [b] => b.toNat < 128
  | b :: c :: bs => 128 ≤ b.toNat ∧ Form (c :: bs)

variable {n k : ℕ} {b : UInt8} {bs : List UInt8}

theorem Form.ne_nil (h : Form bs) : bs ≠ [] := by
  intro hnil
  rw [hnil] at h
  exact h

theorem form_cons_of_le (hb : 128 ≤ b.toNat) : Form (b :: bs) ↔ Form bs := by
  cases bs with
  | nil => simp only [Form, iff_false, not_lt, hb]
  | cons c bs => exact and_iff_right hb

theorem form_cons_of_lt (hb : b.toNat < 128) : Form (b :: bs) ↔ bs = [] := by
  cases bs with
  | nil => simp only [Form, hb]
  | cons c bs => simp only [Form, reduceCtorEq, iff_false, not_and, Nat.not_le.mpr hb, false_implies]

/-! ### What `encode` writes -/

theorem encode_of_lt (h : n < 128) : encode n = [UInt8.ofNat n] := by
  rw [encode, if_pos h]

theorem encode_of_le (h : 128 ≤ n) :
    encode n = UInt8.ofNat (n % 128 + 128) :: encode (n / 128) := by
  rw [encode, if_neg (Nat.not_lt.mpr h)]

theorem form_encode (n : ℕ) : Form (encode n) := by
  induction n using encode.induct with
  | case1 n h =>
    rw [encode_of_lt h]
    show (UInt8.ofNat n).toNat < 128
    rw [UInt8.toNat_ofNat']
    omega
  | case2 n h ih =>
    rw [encode_of_le (Nat.not_lt.mp h), form_cons_of_le]
    · exact ih
    · rw [UInt8.toNat_ofNat']
      omega

theorem value_encode (n : ℕ) : value (encode n) = n := by
  induction n using encode.induct with
  | case1 n h =>
    rw [encode_of_lt h, value, value, UInt8.toNat_ofNat']
    omega
  | case2 n h ih =>
    rw [encode_of_le (Nat.not_lt.mp h), value, ih, UInt8.toNat_ofNat']
    omega

/-- `k` bytes are enough for what is below `128 ^ k`, and only for that. -/
theorem length_encode_le (n k : ℕ) : (encode n).length ≤ k + 1 ↔ n < 128 ^ (k + 1) := by
  induction k generalizing n with
  | zero =>
    rw [zero_add, pow_one]
    by_cases h : n < 128
    · simp only [encode_of_lt h, length_singleton, le_refl, h]
    · have hpos : 0 < (encode (n / 128)).length := length_pos_iff.mpr (form_encode _).ne_nil
      rw [encode_of_le (Nat.not_lt.mp h), length_cons]
      omega
  | succ k ih =>
    by_cases h : n < 128
    · have hpow : 128 ≤ 128 ^ (k + 1 + 1) := by
        calc 128 = 128 ^ 1 := (pow_one 128).symm
          _ ≤ 128 ^ (k + 1 + 1) := Nat.pow_le_pow_right (by omega) (by omega)
      rw [encode_of_lt h, length_singleton]
      exact iff_of_true (by omega) (by omega)
    · rw [encode_of_le (Nat.not_lt.mp h), length_cons, Nat.add_le_add_iff_right, ih,
        Nat.div_lt_iff_lt_mul (by omega), ← pow_succ]

/-- One byte for every seven bits of the number, rounded up; zero takes one bit. -/
theorem length_encode (n : ℕ) : (encode n).length = ((max n 1).size + 6) / 7 := by
  have hle : ∀ k, (encode n).length ≤ k + 1 ↔ ((max n 1).size + 6) / 7 ≤ k + 1 := by
    intro k
    have hpow : (128 : ℕ) ^ (k + 1) = 2 ^ (7 * (k + 1)) := by rw [pow_mul]; rfl
    have hone : 1 < 2 ^ (7 * (k + 1)) := Nat.one_lt_two_pow (by omega)
    have hsize : (max n 1).size ≤ 7 * (k + 1) ↔ n < 2 ^ (7 * (k + 1)) := by
      rw [Nat.size_le, max_lt_iff, and_iff_left hone]
    rw [length_encode_le, hpow, ← hsize]
    omega
  have hpos : 0 < (encode n).length := length_pos_iff.mpr (form_encode n).ne_nil
  have hpos' : 0 < (max n 1).size := Nat.size_pos.mpr (by omega)
  have h₁ := (hle ((encode n).length - 1)).mp (by omega)
  have h₂ := (hle (((max n 1).size + 6) / 7 - 1)).mpr (by omega)
  omega

end Leb128
