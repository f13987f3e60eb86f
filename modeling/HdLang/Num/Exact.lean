import HdLang.Num.Model
import Mathlib.Algebra.Order.Ring.Abs
import Mathlib.Tactic.Linarith
import Mathlib.Tactic.Ring

/-!
# Arithmetic at the limits

`fit` gives the value of a number of the type, and every value's number is one (`holds_toInt`), so an
operator whose result is a number of the type gives it. The guards of the checked methods are read as
bounds on the mathematical result, which is the content of `checked_exact` and of the methods built
on them.
-/

namespace HdLang.Num

open IntType

@[simp] theorem ok_bind {α β : Type} (a : α) (f : α → Except Stop β) :
    ((.ok a : Except Stop α) >>= f) = f a := rfl

@[simp] theorem pure_eq {α : Type} (a : α) : (pure a : Except Stop α) = .ok a := rfl

namespace IntType

variable {t : IntType} {a b : t.Value} {n : ℤ}

/-! ### Ranges -/

theorem two_pow_width (t : IntType) : (2 : ℤ) ^ t.width = 2 * 2 ^ (t.width - 1) := by
  have hwidth := t.width_ge
  rw [← pow_succ', Nat.sub_add_cancel (by omega)]

theorem pow_width_ge (t : IntType) : (128 : ℤ) ≤ 2 ^ (t.width - 1) := by
  have hwidth := t.width_ge
  calc (128 : ℤ) = 2 ^ 7 := by norm_num
    _ ≤ 2 ^ (t.width - 1) := pow_le_pow_right₀ (by norm_num) (by omega)

theorem lowest_of_unsigned (h : t.signed = false) : t.lowest = 0 := by
  rw [lowest, h, if_neg Bool.false_ne_true]

theorem lowest_of_signed (h : t.signed = true) : t.lowest = -t.highest - 1 := by
  rw [lowest, highest, h, if_pos rfl, if_pos rfl]
  ring

theorem highest_ge (t : IntType) : 127 ≤ t.highest := by
  have hpow := t.pow_width_ge
  have htwo := t.two_pow_width
  unfold highest
  split <;> omega

theorem lowest_cases (t : IntType) : t.lowest = 0 ∨ t.lowest = -t.highest - 1 := by
  cases h : t.signed with
  | false => exact .inl (lowest_of_unsigned h)
  | true => exact .inr (lowest_of_signed h)

theorem holds_zero (t : IntType) : t.Holds 0 := by
  have := t.highest_ge
  have := t.lowest_cases
  unfold Holds
  omega

theorem holds_one (t : IntType) : t.Holds 1 := by
  have := t.highest_ge
  have := t.lowest_cases
  unfold Holds
  omega

theorem holds_lowest (t : IntType) : t.Holds t.lowest := by
  have := t.highest_ge
  have := t.lowest_cases
  unfold Holds
  omega

theorem holds_highest (t : IntType) : t.Holds t.highest := by
  have := t.highest_ge
  have := t.lowest_cases
  unfold Holds
  omega

theorem holds_toInt (v : t.Value) : t.Holds (t.toInt v) := by
  have htwo := t.two_pow_width
  unfold Holds lowest highest toInt
  cases t.signed with
  | false =>
    have hlt : ((BitVec.toNat v : ℕ) : ℤ) < 2 ^ t.width := by exact_mod_cast v.isLt
    rw [if_neg Bool.false_ne_true, if_neg Bool.false_ne_true, if_neg Bool.false_ne_true]
    omega
  | true =>
    have hlt := BitVec.toInt_lt (x := v)
    have hle := BitVec.le_toInt v
    rw [if_pos rfl, if_pos rfl, if_pos rfl]
    omega

theorem toInt_ofInt (h : t.Holds n) : t.toInt (t.ofInt n) = n := by
  have htwo := t.two_pow_width
  have hwidth := t.width_ge
  unfold Holds lowest highest at h
  unfold toInt ofInt
  cases hsigned : t.signed with
  | false =>
    rw [hsigned, if_neg Bool.false_ne_true, if_neg Bool.false_ne_true] at h
    rw [if_neg Bool.false_ne_true, BitVec.toNat_ofInt]
    have hmod : n % ((2 ^ t.width : ℕ) : ℤ) = n := by
      push_cast
      exact Int.emod_eq_of_lt h.1 (by omega)
    rw [hmod, Int.toNat_of_nonneg h.1]
  | true =>
    rw [hsigned, if_pos rfl, if_pos rfl] at h
    rw [if_pos rfl]
    exact BitVec.toInt_ofInt_eq_self (by omega) h.1 (by omega)

theorem toInt_inj : t.toInt a = t.toInt b ↔ a = b := by
  refine ⟨fun h => ?_, fun h => by rw [h]⟩
  unfold toInt at h
  cases hsigned : t.signed with
  | false =>
    rw [hsigned, if_neg Bool.false_ne_true, if_neg Bool.false_ne_true] at h
    exact BitVec.eq_of_toNat_eq (Int.ofNat_inj.mp h)
  | true =>
    rw [hsigned, if_pos rfl, if_pos rfl] at h
    exact BitVec.toInt_inj.mp h

theorem ofInt_toInt (v : t.Value) : t.ofInt (t.toInt v) = v :=
  toInt_inj.mp (toInt_ofInt (holds_toInt v))

@[simp] theorem toInt_zero (t : IntType) : t.toInt t.zero = 0 := toInt_ofInt t.holds_zero

@[simp] theorem toInt_one (t : IntType) : t.toInt t.one = 1 := toInt_ofInt t.holds_one

@[simp] theorem toInt_intMin (t : IntType) : t.toInt t.intMin = t.lowest :=
  toInt_ofInt t.holds_lowest

@[simp] theorem toInt_intMax (t : IntType) : t.toInt t.intMax = t.highest :=
  toInt_ofInt t.holds_highest

/-! ### Operators -/

theorem fit_eq (h : t.Holds n) : t.fit n = .ok (t.ofInt n) := if_pos h

theorem fit_error (h : ¬t.Holds n) : t.fit n = .error overflow := if_neg h

theorem lt_iff : t.lt a b = true ↔ t.toInt a < t.toInt b := decide_eq_true_iff

theorem eq_zero_iff : a = t.zero ↔ t.toInt a = 0 := by
  rw [← toInt_inj, toInt_zero]

theorem div_eq (hb : t.toInt b ≠ 0) : t.div a b = t.fit ((t.toInt a).tdiv (t.toInt b)) := if_neg hb

end IntType

open IntType

variable {t : IntType} (a b : t.Value)

/-- The value of `n`, when `n` is a number of the type. -/
def exact (t : IntType) (n : ℤ) : Option t.Value := if t.Holds n then some (t.ofInt n) else none

/-- The number of the type nearest to `n`. -/
def clamp (t : IntType) (n : ℤ) : t.Value := t.ofInt (max t.lowest (min n t.highest))

theorem andThen_true (x : Except Stop Bool) : andThen true x = x := rfl

theorem andThen_false (x : Except Stop Bool) : andThen false x = .ok false := rfl

theorem exact_eq {n : ℤ} (h : t.Holds n) : exact t n = some (t.ofInt n) := if_pos h

theorem exact_none {n : ℤ} (h : ¬t.Holds n) : exact t n = none := if_neg h

theorem lt_ofInt {n : ℤ} (h : t.Holds n) : t.lt (t.ofInt n) a = decide (n < t.toInt a) := by
  rw [lt, toInt_ofInt h]

theorem lt_ofInt' {n : ℤ} (h : t.Holds n) : t.lt a (t.ofInt n) = decide (t.toInt a < n) := by
  rw [lt, toInt_ofInt h]

theorem lt_zero_left : t.lt t.zero a = decide (0 < t.toInt a) := by rw [lt, toInt_zero]

theorem lt_zero_right : t.lt a t.zero = decide (t.toInt a < 0) := by rw [lt, toInt_zero]

/-- The end of a checked method: the value unless `n` is out of range. -/
theorem guarded_eq {n : ℤ} {overflows : Prop} [Decidable overflows] (h : overflows ↔ ¬t.Holds n) :
    (if decide overflows = true then .ok none
      else t.fit n >>= fun v => .ok (some v) : Except Stop (Option t.Value)) = .ok (exact t n) := by
  by_cases hover : overflows
  · rw [if_pos (decide_eq_true hover), exact_none (h.mp hover)]
  · have hholds : t.Holds n := not_not.mp fun hn => hover (h.mpr hn)
    rw [if_neg (by rw [decide_eq_true_eq]; exact hover), fit_eq hholds, exact_eq hholds]
    rfl

/-- **`checked_add`** is exact. -/
theorem checkedAdd_eq : checkedAdd a b = .ok (exact t (t.toInt a + t.toInt b)) := by
  have ha := holds_toInt a
  have hb := holds_toInt b
  have hzero := t.holds_zero
  unfold Holds at ha hb hzero
  unfold checkedAdd
  simp only [lt_zero_left, lt_zero_right, pure_eq]
  obtain hpos | heq | hneg := lt_trichotomy 0 (t.toInt b)
  · have hbound : t.Holds (t.highest - t.toInt b) := by
      unfold Holds
      omega
    have hsub : t.sub t.intMax b = .ok (t.ofInt (t.highest - t.toInt b)) := by
      rw [sub, toInt_intMax, fit_eq hbound]
    rw [decide_eq_true hpos, decide_eq_false (by omega : ¬t.toInt b < 0), andThen_true,
      andThen_false, hsub, ok_bind, lt_ofInt a hbound, ok_bind, ok_bind, if_neg Bool.false_ne_true]
    refine guarded_eq ?_
    unfold Holds
    omega
  · have hholds : t.Holds (t.toInt a + t.toInt b) := by
      unfold Holds
      omega
    rw [decide_eq_false (by omega : ¬0 < t.toInt b), decide_eq_false (by omega : ¬t.toInt b < 0),
      andThen_false, ok_bind, if_neg Bool.false_ne_true, andThen_false, ok_bind,
      if_neg Bool.false_ne_true, add, fit_eq hholds, exact_eq hholds]
    rfl
  · have hbound : t.Holds (t.lowest - t.toInt b) := by
      unfold Holds
      omega
    have hsub : t.sub t.intMin b = .ok (t.ofInt (t.lowest - t.toInt b)) := by
      rw [sub, toInt_intMin, fit_eq hbound]
    rw [decide_eq_false (by omega : ¬0 < t.toInt b), decide_eq_true hneg, andThen_false,
      andThen_true, ok_bind, if_neg Bool.false_ne_true, hsub, ok_bind, lt_ofInt' a hbound, ok_bind]
    refine guarded_eq ?_
    unfold Holds
    omega

/-- **`checked_sub`** is exact. -/
theorem checkedSub_eq : checkedSub a b = .ok (exact t (t.toInt a - t.toInt b)) := by
  have ha := holds_toInt a
  have hb := holds_toInt b
  have hzero := t.holds_zero
  unfold Holds at ha hb hzero
  unfold checkedSub
  simp only [lt_zero_left, lt_zero_right, pure_eq]
  obtain hpos | heq | hneg := lt_trichotomy 0 (t.toInt b)
  · have hbound : t.Holds (t.lowest + t.toInt b) := by
      unfold Holds
      omega
    have hadd : t.add t.intMin b = .ok (t.ofInt (t.lowest + t.toInt b)) := by
      rw [add, toInt_intMin, fit_eq hbound]
    rw [decide_eq_true hpos, decide_eq_false (by omega : ¬t.toInt b < 0), andThen_true,
      andThen_false, hadd, ok_bind, lt_ofInt' a hbound, ok_bind, ok_bind, if_neg Bool.false_ne_true]
    refine guarded_eq ?_
    unfold Holds
    omega
  · have hholds : t.Holds (t.toInt a - t.toInt b) := by
      unfold Holds
      omega
    rw [decide_eq_false (by omega : ¬0 < t.toInt b), decide_eq_false (by omega : ¬t.toInt b < 0),
      andThen_false, ok_bind, if_neg Bool.false_ne_true, andThen_false, ok_bind,
      if_neg Bool.false_ne_true, sub, fit_eq hholds, exact_eq hholds]
    rfl
  · have hbound : t.Holds (t.highest + t.toInt b) := by
      unfold Holds
      omega
    have hadd : t.add t.intMax b = .ok (t.ofInt (t.highest + t.toInt b)) := by
      rw [add, toInt_intMax, fit_eq hbound]
    rw [decide_eq_false (by omega : ¬0 < t.toInt b), decide_eq_true hneg, andThen_false,
      andThen_true, ok_bind, if_neg Bool.false_ne_true, hadd, ok_bind, lt_ofInt a hbound, ok_bind]
    refine guarded_eq ?_
    unfold Holds
    omega

/-! ### Products and quotients -/

/-- A bound of a product by a positive factor, from above. -/
theorem tdiv_lt_iff {m x y : ℤ} (hm : 0 ≤ m) (hy : 0 < y) : m.tdiv y < x ↔ m < x * y := by
  rw [Int.tdiv_eq_ediv_of_nonneg hm, Int.ediv_lt_iff_lt_mul hy]

/-- A bound of a product by a positive factor, from below. -/
theorem lt_tdiv_iff {m x y : ℤ} (hm : m ≤ 0) (hy : 0 < y) : x < m.tdiv y ↔ x * y < m := by
  have hneg := tdiv_lt_iff (m := -m) (x := -x) (by omega) hy
  rw [Int.neg_tdiv] at hneg
  have hmul : -x * y = -(x * y) := by ring
  rw [hmul] at hneg
  omega

/-- A bound of a product by a negative factor, from above. -/
theorem lt_tdiv_neg_iff {m x y : ℤ} (hm : 0 ≤ m) (hy : y < 0) : x < m.tdiv y ↔ m < x * y := by
  have hpos := tdiv_lt_iff (m := m) (x := -x) (y := -y) hm (by omega)
  rw [Int.tdiv_neg] at hpos
  have hmul : -x * -y = x * y := by ring
  rw [hmul] at hpos
  omega

theorem tdiv_between {m y : ℤ} (hy : 0 < y) :
    (0 ≤ m → 0 ≤ m.tdiv y ∧ m.tdiv y ≤ m) ∧ (m ≤ 0 → m ≤ m.tdiv y ∧ m.tdiv y ≤ 0) := by
  have hpos : ∀ k : ℤ, 0 ≤ k → 0 ≤ k.tdiv y ∧ k.tdiv y ≤ k := fun k hk => by
    rw [Int.tdiv_eq_ediv_of_nonneg hk]
    exact ⟨Int.ediv_nonneg hk hy.le, Int.ediv_le_self y hk⟩
  refine ⟨hpos m, fun hm => ?_⟩
  have hneg := hpos (-m) (by omega)
  rw [Int.neg_tdiv] at hneg
  omega

/-- A quotient of two numbers of the type is one, but for the least number by -1. -/
theorem holds_tdiv {m y : ℤ} (hm : t.Holds m) (hy : t.Holds y) (hzero : y ≠ 0)
    (hmin : ¬(y = -1 ∧ m = t.lowest)) : t.Holds (m.tdiv y) := by
  have hcases := t.lowest_cases
  have hhigh := t.highest_ge
  unfold Holds at hm hy ⊢
  obtain hneg | hpos := lt_or_gt_of_ne hzero
  · -- only a signed type has a negative divisor
    have hflip : m.tdiv y = -(m.tdiv (-y)) := by rw [Int.tdiv_neg, neg_neg]
    obtain ⟨hup, hdown⟩ := tdiv_between (m := m) (y := -y) (by omega)
    obtain hnonneg | hnonpos := le_total 0 m
    · have := hup hnonneg
      omega
    · by_cases hmone : y = -1
      · have : m.tdiv y = -m := by rw [hmone, Int.tdiv_neg, Int.tdiv_one]
        omega
      · have hbound : m.tdiv y < -m ∨ m = 0 := by
          by_cases hm0 : m = 0
          · exact .inr hm0
          · refine .inl ?_
            rw [hflip, Int.neg_lt_neg_iff]
            have hlt := lt_tdiv_iff (m := m) (x := m) (y := -y) hnonpos (by omega)
            have hmul := mul_lt_mul_of_neg_left (by omega : 1 < -y) (by omega : m < 0)
            exact hlt.mpr (by rwa [mul_one] at hmul)
        have := hdown hnonpos
        omega
  · obtain ⟨hup, hdown⟩ := tdiv_between (m := m) hpos
    obtain hnonneg | hnonpos := le_total 0 m
    · have := hup hnonneg
      omega
    · have := hdown hnonpos
      omega

theorem mulOverflows_eq (ha0 : t.toInt a ≠ 0) (hb0 : t.toInt b ≠ 0) :
    mulOverflows a b = .ok (decide ¬t.Holds (t.toInt a * t.toInt b)) := by
  have ha := holds_toInt a
  have hb := holds_toInt b
  have hzero := t.holds_zero
  have hcases := t.lowest_cases
  have hhigh := t.highest_ge
  unfold mulOverflows
  simp only [lt_zero_left, pure_eq]
  -- a quotient of a bound is a number of the type in each of the cases
  have hdiv : ∀ {m : t.Value} {y : t.Value}, t.toInt y ≠ 0 →
      ¬(t.toInt y = -1 ∧ t.toInt m = t.lowest) →
      t.div m y = .ok (t.ofInt ((t.toInt m).tdiv (t.toInt y))) ∧
        t.Holds ((t.toInt m).tdiv (t.toInt y)) := fun {m y} hy hmin => by
    have hholds := holds_tdiv (holds_toInt m) (holds_toInt y) hy hmin
    exact ⟨by rw [div_eq hy, fit_eq hholds], hholds⟩
  unfold Holds at ha hb hzero
  obtain haneg | hapos := lt_or_gt_of_ne ha0 <;> obtain hbneg | hbpos := lt_or_gt_of_ne hb0
  · obtain ⟨hrun, hbound⟩ := hdiv (m := t.intMax) (y := a) ha0 (by rw [toInt_intMax]; omega)
    rw [toInt_intMax] at hrun hbound
    rw [if_neg (by rw [decide_eq_true_eq]; omega), if_neg (by rw [decide_eq_true_eq]; omega), hrun,
      ok_bind, lt_ofInt' b hbound]
    congr 2
    apply propext
    rw [lt_tdiv_neg_iff (by omega) haneg, mul_comm]
    have hprod : 0 < t.toInt a * t.toInt b := mul_pos_of_neg_of_neg haneg hbneg
    unfold Holds
    omega
  · obtain ⟨hrun, hbound⟩ := hdiv (m := t.intMin) (y := b) hb0 (by omega)
    rw [toInt_intMin] at hrun hbound
    rw [if_neg (by rw [decide_eq_true_eq]; omega), if_pos (by rw [decide_eq_true_eq]; omega), hrun,
      ok_bind, lt_ofInt' a hbound]
    congr 2
    apply propext
    rw [lt_tdiv_iff (by omega) hbpos]
    have hprod : t.toInt a * t.toInt b < 0 := mul_neg_of_neg_of_pos haneg hbpos
    unfold Holds
    omega
  · obtain ⟨hrun, hbound⟩ := hdiv (m := t.intMin) (y := a) ha0 (by omega)
    rw [toInt_intMin] at hrun hbound
    rw [if_pos (by rw [decide_eq_true_eq]; omega), if_neg (by rw [decide_eq_true_eq]; omega), hrun,
      ok_bind, lt_ofInt' b hbound]
    congr 2
    apply propext
    rw [lt_tdiv_iff (by omega) hapos, mul_comm]
    have hprod : t.toInt a * t.toInt b < 0 := mul_neg_of_pos_of_neg hapos hbneg
    unfold Holds
    omega
  · obtain ⟨hrun, hbound⟩ := hdiv (m := t.intMax) (y := b) hb0 (by omega)
    rw [toInt_intMax] at hrun hbound
    rw [if_pos (by rw [decide_eq_true_eq]; omega), if_pos (by rw [decide_eq_true_eq]; omega), hrun,
      ok_bind, lt_ofInt a hbound]
    congr 2
    apply propext
    rw [tdiv_lt_iff (by omega) hbpos]
    have hprod : 0 < t.toInt a * t.toInt b := mul_pos hapos hbpos
    unfold Holds
    omega

/-- **`checked_mul`** is exact. -/
theorem checkedMul_eq : checkedMul a b = .ok (exact t (t.toInt a * t.toInt b)) := by
  unfold checkedMul
  simp only [pure_eq]
  by_cases hzero : a = t.zero ∨ b = t.zero
  · have hprod : t.toInt a * t.toInt b = 0 := by
      rw [eq_zero_iff, eq_zero_iff] at hzero
      exact mul_eq_zero.mpr hzero
    rw [if_pos hzero, hprod, exact_eq t.holds_zero]
    rfl
  · obtain ⟨ha, hb⟩ := not_or.mp hzero
    rw [if_neg hzero, mulOverflows_eq a b (mt eq_zero_iff.mpr ha) (mt eq_zero_iff.mpr hb), ok_bind]
    exact guarded_eq Iff.rfl

theorem zero_eq (t : IntType) : t.zero = 0#t.width := BitVec.ofInt_natCast t.width 0

theorem toInt_not_zero (t : IntType) :
    t.toInt (~~~t.zero) = if t.signed then -1 else t.highest := by
  have hwidth := t.width_ge
  rw [zero_eq, BitVec.not_zero, toInt, highest]
  cases t.signed with
  | false =>
    rw [if_neg Bool.false_ne_true, if_neg Bool.false_ne_true, if_neg Bool.false_ne_true,
      BitVec.toNat_allOnes]
    simp
  | true => rw [if_pos rfl, if_pos rfl, BitVec.toInt_allOnes, if_pos (by omega)]

/-- The guard of `checked_div` is the one quotient that is out of range. -/
theorem divGuard_iff : (t.lt (~~~t.zero) t.zero = true ∧ b = ~~~t.zero ∧ a = t.intMin) ↔
    t.signed = true ∧ t.toInt b = -1 ∧ t.toInt a = t.lowest := by
  have hhigh := t.highest_ge
  rw [lt_iff, toInt_zero, ← toInt_inj (a := b), ← toInt_inj (a := a), toInt_intMin, toInt_not_zero]
  cases t.signed with
  | false =>
    rw [if_neg Bool.false_ne_true]
    exact ⟨fun h => absurd h.1 (by omega), fun h => absurd h.1 Bool.false_ne_true⟩
  | true =>
    rw [if_pos rfl]
    exact ⟨fun h => ⟨rfl, h.2⟩, fun h => ⟨by omega, h.2⟩⟩

/-- **`checked_div`** is exact. -/
theorem checkedDiv_eq : checkedDiv a b =
    .ok (if t.toInt b = 0 then none else exact t ((t.toInt a).tdiv (t.toInt b))) := by
  have hhigh := t.highest_ge
  have hb1 := (holds_toInt b).1
  unfold checkedDiv
  simp only [pure_eq]
  by_cases hb : b = t.zero
  · rw [if_pos hb, if_pos (eq_zero_iff.mp hb)]
  · have hb0 : t.toInt b ≠ 0 := mt eq_zero_iff.mpr hb
    rw [if_neg hb, if_neg hb0]
    by_cases hguard : t.signed = true ∧ t.toInt b = -1 ∧ t.toInt a = t.lowest
    · have hlow := lowest_of_signed hguard.1
      have hn : ¬t.Holds ((t.toInt a).tdiv (t.toInt b)) := by
        rw [hguard.2.1, hguard.2.2, Int.tdiv_neg, Int.tdiv_one]
        unfold Holds
        omega
      rw [if_pos ((divGuard_iff a b).mpr hguard), exact_none hn]
    · have hmin : ¬(t.toInt b = -1 ∧ t.toInt a = t.lowest) := fun h => by
        refine hguard ⟨?_, h⟩
        by_contra hsigned
        have hlow := lowest_of_unsigned (Bool.eq_false_iff.mpr hsigned)
        omega
      have hholds := holds_tdiv (holds_toInt a) (holds_toInt b) hb0 hmin
      rw [if_neg (mt (divGuard_iff a b).mp hguard), div_eq hb0, fit_eq hholds, exact_eq hholds]
      rfl

/-! ### Saturation -/

theorem clamp_of_holds {n : ℤ} (h : t.Holds n) : clamp t n = t.ofInt n := by
  unfold clamp
  rw [min_eq_left h.2, max_eq_right h.1]

theorem clamp_above {n : ℤ} (h : t.highest < n) : clamp t n = t.intMax := by
  unfold clamp intMax
  rw [min_eq_right h.le, max_eq_right t.holds_highest.1]

theorem clamp_below {n : ℤ} (h : n < t.lowest) : clamp t n = t.intMin := by
  unfold clamp intMin
  rw [max_eq_left ((min_le_left n t.highest).trans h.le)]

/-- **`saturating_add`** clamps the sum. -/
theorem saturatingAdd_eq : saturatingAdd a b = .ok (clamp t (t.toInt a + t.toInt b)) := by
  unfold saturatingAdd
  rw [checkedAdd_eq, ok_bind]
  by_cases hholds : t.Holds (t.toInt a + t.toInt b)
  · rw [exact_eq hholds, clamp_of_holds hholds]
    rfl
  · have ha := holds_toInt a
    unfold Holds at hholds ha
    rw [exact_none hholds]
    dsimp only
    rw [lt_zero_left]
    by_cases hpos : 0 < t.toInt b
    · rw [if_pos (decide_eq_true hpos), clamp_above (by omega)]
      rfl
    · rw [if_neg (by rw [decide_eq_true_eq]; exact hpos), clamp_below (by omega)]
      rfl

/-- **`saturating_sub`** clamps the difference. -/
theorem saturatingSub_eq : saturatingSub a b = .ok (clamp t (t.toInt a - t.toInt b)) := by
  unfold saturatingSub
  rw [checkedSub_eq, ok_bind]
  by_cases hholds : t.Holds (t.toInt a - t.toInt b)
  · rw [exact_eq hholds, clamp_of_holds hholds]
    rfl
  · have ha := holds_toInt a
    unfold Holds at hholds ha
    rw [exact_none hholds]
    dsimp only
    rw [lt_zero_left]
    by_cases hpos : 0 < t.toInt b
    · rw [if_pos (decide_eq_true hpos), clamp_below (by omega)]
      rfl
    · rw [if_neg (by rw [decide_eq_true_eq]; exact hpos), clamp_above (by omega)]
      rfl

/-! ### Rotation -/

theorem leadingZeros_zero (t : IntType) : leadingZeros t.zero = t.width := by
  unfold leadingZeros
  rw [zero_eq, BitVec.toNat_ofNat, Nat.zero_mod, Nat.size_zero, Nat.sub_zero]

/-- The bits of a shift right that the sign does not fill. -/
theorem shr_getLsbD {count : ℕ} (hcount : count < t.width) {v : t.Value} (h : t.shr a count = .ok v)
    {i : ℕ} (hi : count + i < t.width) :
    v.getLsbD i = a.getLsbD (count + i) := by
  unfold shr at h
  rw [if_pos hcount, Except.ok.injEq] at h
  subst h
  split
  · rw [BitVec.getLsbD_sshiftRight]
    simp [hi, show i < t.width by omega]
  · rw [BitVec.getLsbD_ushiftRight]

theorem rotateLeft_of_mod_eq_zero {w count : ℕ} (x : BitVec w) (h : count % w = 0) :
    x.rotateLeft count = x := by
  apply BitVec.eq_of_getLsbD_eq
  intro i hi
  rw [BitVec.getLsbD_rotateLeft, h]
  simp [hi]

/-- **`rotate_left`** rotates the pattern. -/
theorem rotateLeft_eq (count : ℕ) : rotateLeft a count = .ok (a.rotateLeft count) := by
  have hwidth := t.width_ge
  unfold rotateLeft
  simp only [pure_eq]
  rw [leadingZeros_zero]
  by_cases hshift : count % t.width = 0
  · rw [if_pos hshift, rotateLeft_of_mod_eq_zero a hshift]
  · have hlt := Nat.mod_lt count (by omega : t.width > 0)
    obtain ⟨low, hlow⟩ : ∃ low, t.shr a (t.width - count % t.width) = .ok low :=
      ⟨_, if_pos (by omega)⟩
    rw [if_neg hshift, shl, if_pos hlt, ok_bind, shl, if_pos hlt, ok_bind, hlow, ok_bind]
    congr 1
    apply BitVec.eq_of_getLsbD_eq
    intro i hi
    rw [BitVec.getLsbD_or, BitVec.getLsbD_and, BitVec.getLsbD_not, BitVec.getLsbD_shiftLeft,
      BitVec.getLsbD_shiftLeft, BitVec.getLsbD_rotateLeft, BitVec.getLsbD_not, zero_eq,
      BitVec.getLsbD_zero]
    by_cases hi' : i < count % t.width
    · -- the low bits come from the other end
      rw [shr_getLsbD a (by omega) hlow (by omega)]
      simp [hi, hi']
    · have hi'' : i - count % t.width < t.width := by omega
      simp [hi, hi', hi'']

/-- **`rotate_right`** rotates the pattern the other way. -/
theorem rotateRight_eq (count : ℕ) : rotateRight a count = .ok (a.rotateRight count) := by
  have hwidth := t.width_ge
  unfold rotateRight
  rw [leadingZeros_zero]
  dsimp only
  have hlt := Nat.mod_lt count (by omega : t.width > 0)
  by_cases hshift : count % t.width = 0
  · rw [if_pos hshift]
    congr 1
    apply BitVec.eq_of_getLsbD_eq
    intro i hi
    rw [BitVec.getLsbD_rotateRight, hshift]
    simp [hi]
  · rw [if_neg hshift, rotateLeft_eq]
    congr 1
    apply BitVec.eq_of_getLsbD_eq
    intro i hi
    rw [BitVec.getLsbD_rotateRight, BitVec.getLsbD_rotateLeft,
      Nat.mod_eq_of_lt (by omega : t.width - count % t.width < t.width),
      show t.width - (t.width - count % t.width) = count % t.width by omega]

theorem rotateRight_rotateLeft {w : ℕ} (x : BitVec w) (count : ℕ) :
    (x.rotateLeft count).rotateRight count = x := by
  apply BitVec.eq_of_getLsbD_eq
  intro i hi
  have hlt := Nat.mod_lt count (by omega : w > 0)
  rw [BitVec.getLsbD_rotateRight]
  by_cases hi' : i < w - count % w
  · rw [decide_eq_true hi', cond_true, BitVec.getLsbD_rotateLeft]
    have hge : ¬count % w + i < count % w := by omega
    simp [show count % w + i < w by omega]
  · rw [decide_eq_false hi', cond_false, BitVec.getLsbD_rotateLeft]
    have hlow : i - (w - count % w) < count % w := by omega
    rw [decide_eq_true hlow, cond_true, decide_eq_true hi, Bool.true_and]
    congr 1
    omega

theorem rotateLeft_rotateRight {w : ℕ} (x : BitVec w) (count : ℕ) :
    (x.rotateRight count).rotateLeft count = x := by
  apply BitVec.eq_of_getLsbD_eq
  intro i hi
  have hlt := Nat.mod_lt count (by omega : w > 0)
  rw [BitVec.getLsbD_rotateLeft]
  by_cases hi' : i < count % w
  · rw [decide_eq_true hi', cond_true, BitVec.getLsbD_rotateRight]
    have hge : ¬w - count % w + i < w - count % w := by omega
    simp [show w - count % w + i < w by omega]
  · rw [decide_eq_false hi', cond_false, BitVec.getLsbD_rotateRight, decide_eq_true hi,
      Bool.true_and]
    have hlow : i - count % w < w - count % w := by omega
    rw [decide_eq_true hlow, cond_true]
    congr 1
    omega

/-! ### Powers -/

/-- A product that leaves the range stays out of it when it is multiplied by more. -/
theorem not_holds_mul {n m : ℤ} (hn : ¬t.Holds n) (hm : 1 ≤ m) : ¬t.Holds (n * m) := by
  have hcases := t.lowest_cases
  have hhigh := t.highest_ge
  unfold Holds at hn ⊢
  obtain hneg | hpos := le_total n 0
  · have : n * m ≤ n * 1 := mul_le_mul_of_nonpos_left hm hneg
    omega
  · have : n * 1 ≤ n * m := mul_le_mul_of_nonneg_left hm hpos
    omega

/-- What the loop of `pow` carries: once it has multiplied by a base of size at least two, so is the
result. -/
def PowState (result base : ℤ) : Prop :=
  result = 1 ∨ 2 ≤ |result| ∨ |base| ≤ 1

theorem PowState.one (base : ℤ) : PowState 1 base := .inl rfl

theorem PowState.large {r b : ℤ} (h : PowState r b) (hb : ¬|b| ≤ 1) : r = 1 ∨ 2 ≤ |r| :=
  h.elim .inl fun h => h.elim .inr fun h => absurd h hb

/-- Multiplying by the base, or not, and squaring it. -/
theorem PowState.square {r b r' : ℤ} (h : PowState r b) (hr' : r' = r ∨ r' = r * b) :
    PowState r' (b * b) := by
  by_cases hb : |b| ≤ 1
  · refine .inr (.inr ?_)
    rw [abs_mul]
    exact mul_le_one₀ hb (abs_nonneg b) hb
  · have hb2 : 2 ≤ |b| := by omega
    obtain rfl | rfl := hr'
    · exact (h.large hb).elim .inl fun h => .inr (.inl h)
    · refine .inr (.inl ?_)
      rw [abs_mul]
      obtain rfl | hr := h.large hb
      · rwa [abs_one, one_mul]
      · nlinarith

theorem one_le_square_pow {b : ℤ} (hb : b ≠ 0) (k : ℕ) : 1 ≤ (b * b) ^ k := by
  have hpos : 0 < b * b := mul_self_pos.mpr hb
  exact one_le_pow₀ (by omega)

/-- A square that leaves the range takes every multiple of its powers out of it. -/
theorem not_holds_square {r b : ℤ} {k : ℕ} (h : PowState r (b * b)) (hk : k ≠ 0)
    (hsquare : ¬t.Holds (b * b)) : ¬t.Holds (r * (b * b) ^ k) := by
  have hcases := t.lowest_cases
  have hhigh := t.highest_ge
  have hnonneg : 0 ≤ b * b := mul_self_nonneg b
  have habove : t.highest < b * b := by
    unfold Holds at hsquare
    omega
  have hpow : b * b ≤ (b * b) ^ k := le_self_pow₀ (by omega) hk
  have hlarge : ¬|b * b| ≤ 1 := by
    rw [abs_of_nonneg hnonneg]
    omega
  unfold Holds
  obtain rfl | hr := h.large hlarge
  · omega
  · obtain hpos | hneg := le_abs.mp hr
    · have : 2 * (b * b) ^ k ≤ r * (b * b) ^ k := mul_le_mul_of_nonneg_right hpos (by omega)
      omega
    · have : 2 * (b * b) ^ k ≤ -r * (b * b) ^ k := mul_le_mul_of_nonneg_right hneg (by omega)
      rw [neg_mul] at this
      omega

/-- **The loop of `pow`** gives the power, or panics when it is out of range. -/
theorem powFrom_eq (result base : t.Value) (rest : ℕ)
    (h : PowState (t.toInt result) (t.toInt base)) :
    powFrom result base rest = t.fit (t.toInt result * t.toInt base ^ rest) := by
  induction rest using Nat.strong_induction_on generalizing result base with
  | _ rest ih =>
    rw [powFrom]
    by_cases hrest : rest = 0
    · rw [dif_pos hrest, hrest, pow_zero, mul_one, fit_eq (holds_toInt result), ofInt_toInt]
    · rw [dif_neg hrest, Nat.and_one_is_mod, Nat.shiftRight_one]
      generalize hr' : (if rest % 2 = 1 then t.toInt result * t.toInt base else t.toInt result) = r'
      have hsplit : t.toInt result * t.toInt base ^ rest =
          r' * (t.toInt base * t.toInt base) ^ (rest / 2) := by
        rw [← hr', ← pow_two, ← pow_mul]
        split
        · next hodd =>
          rw [mul_assoc, ← pow_succ']
          congr 2
          omega
        · congr 2
          omega
      have hcases : r' = t.toInt result ∨ r' = t.toInt result * t.toInt base := by
        rw [← hr']
        split
        · exact .inr rfl
        · exact .inl rfl
      have hstate := h.square hcases
      have hmul : (if rest % 2 = 1 then t.mul result base else .ok result) = t.fit r' := by
        rw [← hr']
        split
        · rfl
        · rw [fit_eq (holds_toInt result), ofInt_toInt]
      rw [hmul, hsplit]
      by_cases hholds : t.Holds r'
      · rw [fit_eq hholds, ok_bind]
        by_cases hhalf : rest / 2 = 0
        · rw [if_neg (not_not.mpr hhalf), ok_bind, hhalf, pow_zero, mul_one, powFrom, dif_pos rfl,
            fit_eq hholds]
        · rw [if_pos hhalf, mul]
          by_cases hsquare : t.Holds (t.toInt base * t.toInt base)
          · have hnext := ih (rest / 2) (by omega) (t.ofInt r')
              (t.ofInt (t.toInt base * t.toInt base)) (by
                rwa [toInt_ofInt hholds, toInt_ofInt hsquare])
            rw [toInt_ofInt hholds, toInt_ofInt hsquare] at hnext
            rw [fit_eq hsquare, ok_bind, hnext]
          · rw [fit_error hsquare, fit_error (not_holds_square hstate hhalf hsquare)]
            rfl
      · -- a product is out of range only by a base other than zero
        have hbase : t.toInt base ≠ 0 := by
          intro hzero
          obtain heq | heq := hcases
          · exact hholds (heq ▸ holds_toInt result)
          · rw [hzero, mul_zero] at heq
            exact hholds (heq ▸ t.holds_zero)
        rw [fit_error hholds, fit_error (not_holds_mul hholds (one_le_square_pow hbase (rest / 2)))]
        rfl

theorem pow_eq (exp : ℕ) : pow a exp = t.fit (t.toInt a ^ exp) := by
  rw [pow, powFrom_eq _ _ _ (by rw [toInt_one]; exact .one _), toInt_one, one_mul]

/-- **The integer methods are exact at the limits.** The checked methods give the mathematical result
exactly when it is a number of the type (and the divisor is not zero), with no operation on the way
that panics; the saturating ones give the number of the type nearest to it; the rotations rotate the
pattern, and undo each other; and `pow` gives the power, or panics with an overflow exactly when it is
out of range. -/
theorem methods_exact (t : IntType) (a b : t.Value) (count exp : ℕ) :
    checkedAdd a b = .ok (exact t (t.toInt a + t.toInt b)) ∧
      checkedSub a b = .ok (exact t (t.toInt a - t.toInt b)) ∧
      checkedMul a b = .ok (exact t (t.toInt a * t.toInt b)) ∧
      checkedDiv a b =
        .ok (if t.toInt b = 0 then none else exact t ((t.toInt a).tdiv (t.toInt b))) ∧
      saturatingAdd a b = .ok (clamp t (t.toInt a + t.toInt b)) ∧
      saturatingSub a b = .ok (clamp t (t.toInt a - t.toInt b)) ∧
      rotateLeft a count = .ok (a.rotateLeft (count % t.width)) ∧
      rotateRight a count = .ok (a.rotateRight (count % t.width)) ∧
      (rotateLeft a count >>= fun v => rotateRight v count) = .ok a ∧
      (rotateRight a count >>= fun v => rotateLeft v count) = .ok a ∧
      pow a exp = if t.Holds (t.toInt a ^ exp) then .ok (t.ofInt (t.toInt a ^ exp))
        else .error overflow := by
  refine ⟨checkedAdd_eq a b, checkedSub_eq a b, checkedMul_eq a b, checkedDiv_eq a b,
    saturatingAdd_eq a b, saturatingSub_eq a b, ?_, ?_, ?_, ?_, pow_eq a exp⟩
  · rw [rotateLeft_eq, BitVec.rotateLeft_mod_eq_rotateLeft]
  · rw [rotateRight_eq, BitVec.rotateRight_mod_eq_rotateRight]
  · rw [rotateLeft_eq, ok_bind, rotateRight_eq, rotateRight_rotateLeft]
  · rw [rotateRight_eq, ok_bind, rotateLeft_eq, rotateLeft_rotateRight]

end HdLang.Num

/-!
## Checked arithmetic on numbers

The values of an integer type as the numbers they are: a result that the type does not hold is the panic
of checked arithmetic, and a cast wraps.
-/

namespace HdLang.Num.IntType

variable (t : IntType) (a b : ℤ)

/-- The result of an operation of the type. -/
def checked (n : ℤ) : Except Stop ℤ := if t.Holds n then .ok n else .error overflow

/-- `a + b` -/
def sum : Except Stop ℤ := t.checked (a + b)

/-- `a - b` -/
def difference : Except Stop ℤ := t.checked (a - b)

/-- `a * b` -/
def product : Except Stop ℤ := t.checked (a * b)

/-- `a / b` -/
def quotient : Except Stop ℤ := if b = 0 then .error divisionByZero else t.checked (a.tdiv b)

/-- `a % b` -/
def remainder : Except Stop ℤ := if b = 0 then .error divisionByZero else .ok (a.tmod b)

/-- The cast of a number to the type. -/
def cast (n : ℤ) : ℤ := t.toInt (t.ofInt n)

variable {t : IntType} {a b n : ℤ}

theorem checked_eq (h : t.Holds n) : t.checked n = .ok n := if_pos h

theorem sum_eq (h : t.Holds (a + b)) : t.sum a b = .ok (a + b) := if_pos h

theorem difference_eq (h : t.Holds (a - b)) : t.difference a b = .ok (a - b) := if_pos h

theorem remainder_eq (ha : 0 ≤ a) (hb : b ≠ 0) : remainder a b = .ok (a % b) := by
  rw [remainder, if_neg hb, Int.tmod_eq_emod_of_nonneg ha]

theorem holds_i32_iff : i32.Holds n ↔ -2147483648 ≤ n ∧ n ≤ 2147483647 := Iff.rfl

end HdLang.Num.IntType
