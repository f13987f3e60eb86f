import HdLang.Num.Reading

/-!
# Writing integers

`to_radix` writes the digits of the magnitude: the remainders and quotients toward zero of a negative
number are those of its magnitude, negated. What it writes denotes the value, so a reader gives the
value back.
-/

namespace HdLang.Num

open IntType Positional List

/-- The byte of a digit. -/
def digitSymbol (n : ℕ) : UInt8 := if n < 10 then UInt8.ofNat (48 + n) else UInt8.ofNat (87 + n)

/-- The 36 digits and the 256 bytes, checked one by one. -/
theorem digitTable :
    (∀ n < 36, byteDigit (digitSymbol n) = n ∧ digitSymbol n ≠ 45 ∧ digitSymbol n ≠ 43) ∧
      ∀ n < 256, decimalDigit (UInt8.ofNat n) =
        if byteDigit (UInt8.ofNat n) ≥ 10 then none else some (byteDigit (UInt8.ofNat n)) := by
  decide +kernel

theorem byteDigit_symbol (n : ℕ) (h : n < 36) : byteDigit (digitSymbol n) = n :=
  (digitTable.1 n h).1

theorem symbol_no_sign (n : ℕ) (h : n < 36) : digitSymbol n ≠ 45 ∧ digitSymbol n ≠ 43 :=
  (digitTable.1 n h).2

theorem decimalDigit_eq (byte : UInt8) :
    decimalDigit byte = if byteDigit byte ≥ 10 then none else some (byteDigit byte) := by
  have hall := digitTable.2
  have hbyte := hall byte.toNat byte.toNat_lt
  rwa [UInt8.ofNat_toNat] at hbyte

section Digits

variable {t : IntType}

/-- The bits of `n` from `bit` on, added up. -/
def sumBits (n : ℕ) : ℕ → ℕ → ℕ → ℕ
  | 0, _, value => value
  | left + 1, bit, value =>
    sumBits n left (bit + 1) (if n.testBit bit then value + 1 <<< bit else value)

theorem sumBits_eq : ∀ n < 64, sumBits n 6 0 0 = n := by decide +kernel

theorem and_one_ne_zero (v : t.Value) : v &&& t.one ≠ t.zero ↔ v.getLsbD 0 = true := by
  have hwidth := t.width_ge
  have hone : t.one = 1#t.width := BitVec.ofInt_natCast t.width 1
  rw [hone, zero_eq]
  constructor
  · intro hne
    by_contra hbit
    refine hne (BitVec.eq_of_getLsbD_eq fun i hi => ?_)
    rw [BitVec.getLsbD_and, BitVec.getLsbD_one, BitVec.getLsbD_zero]
    by_cases hi0 : i = 0
    · rw [hi0, Bool.eq_false_iff.mpr hbit, Bool.false_and]
    · simp [hi0]
  · intro hbit heq
    have hzero := congrArg (fun x => x.getLsbD 0) heq
    rw [BitVec.getLsbD_and, BitVec.getLsbD_one, BitVec.getLsbD_zero, hbit] at hzero
    simp at hzero
    omega

theorem digitBits_eq (n left bit value : ℕ) (hleft : bit + left = 6) :
    digitBits (t.ofInt n) bit value = .ok (sumBits n left bit value) := by
  have hwidth := t.width_ge
  induction left generalizing bit value with
  | zero =>
    rw [digitBits, dif_neg (by omega)]
    rfl
  | succ left ih =>
    obtain ⟨shifted, hshifted⟩ : ∃ shifted, t.shr (t.ofInt n) bit = .ok shifted :=
      ⟨_, if_pos (by omega)⟩
    have hbit : shifted.getLsbD 0 = n.testBit bit := by
      rw [shr_getLsbD _ (by omega) hshifted (by omega), Nat.add_zero, ofInt, BitVec.ofInt_natCast,
        BitVec.getLsbD_ofNat, decide_eq_true (by omega), Bool.true_and]
    have hguard : (if shifted &&& t.one ≠ t.zero then value + 1 <<< bit else value) =
        if n.testBit bit then value + 1 <<< bit else value := by
      by_cases hset : n.testBit bit = true
      · rw [if_pos hset, if_pos ((and_one_ne_zero _).mpr (hbit.trans hset))]
      · rw [if_neg hset, if_neg fun h => hset (hbit ▸ (and_one_ne_zero _).mp h)]
    rw [digitBits, dif_pos (by omega), hshifted, ok_bind, hguard, ih _ _ (by omega), sumBits]

theorem digitByte_eq {n : ℕ} (hn : n < 36) :
    digitByte (t.ofInt (n : ℕ)) = .ok (digitSymbol n) := by
  unfold digitByte
  rw [digitBits_eq n 6 0 0 rfl, ok_bind, sumBits_eq n (by omega)]
  rfl

theorem signedValue_tmod (negative : Bool) (m radix : ℕ) :
    (signedValue negative m).tmod radix = signedValue negative (m % radix) := by
  unfold signedValue
  cases negative with
  | true => rw [if_pos rfl, if_pos rfl, Int.neg_tmod, ← Int.ofNat_tmod]
  | false => exact (Int.ofNat_tmod m radix).symm

theorem signedValue_tdiv (negative : Bool) (m radix : ℕ) :
    (signedValue negative m).tdiv radix = signedValue negative (m / radix) := by
  unfold signedValue
  cases negative with
  | true => rw [if_pos rfl, if_pos rfl, Int.neg_tdiv, ← Int.ofNat_tdiv]
  | false => exact (Int.ofNat_tdiv m radix).symm

theorem signedValue_zero (negative : Bool) : signedValue negative 0 = 0 := by
  cases negative <;> rfl

/-- A number of smaller magnitude and the same sign is of the type too. -/
theorem holds_signedValue_of_le {negative : Bool} {m n : ℕ} (hle : m ≤ n)
    (h : t.Holds (signedValue negative n)) : t.Holds (signedValue negative m) :=
  InRange.of_le t.holds_zero.1 t.holds_zero.2 hle h

/-- **The first loop of `to_radix`** gives the digits of the magnitude. -/
theorem reversedDigits_eq {negative : Bool} {radix : ℕ} (hradix : 2 ≤ radix) (hradix' : radix ≤ 36)
    (turns m : ℕ) (reversed : List UInt8) (hm : t.Holds (signedValue negative m))
    (hturns : m < 2 ^ turns) :
    reversedDigits (t.ofInt radix) negative turns (t.ofInt (signedValue negative m)) reversed =
      .ok (reversed ++ (Nat.digits radix m).map digitSymbol) := by
  have hhigh := t.highest_ge
  have hzero := t.holds_zero
  have hradixHolds : t.Holds radix := by
    unfold Holds at *
    omega
  induction turns generalizing m reversed with
  | zero =>
    obtain rfl : m = 0 := by simpa using hturns
    rw [reversedDigits, signedValue_zero, if_pos (show t.ofInt 0 = t.zero from rfl), Nat.digits_zero]
    simp
  | succ turns ih =>
    rw [reversedDigits]
    by_cases hm0 : m = 0
    · rw [hm0, signedValue_zero, if_pos (show t.ofInt 0 = t.zero from rfl), Nat.digits_zero]
      simp
    · have hne : t.ofInt (signedValue negative m) ≠ t.zero := by
        rw [Ne, eq_zero_iff, toInt_ofInt hm]
        unfold signedValue
        split <;> omega
      have hbase : t.toInt (t.ofInt radix) ≠ 0 := by
        rw [toInt_ofInt hradixHolds]
        omega
      have hlt : m % radix < radix := Nat.mod_lt m (by omega)
      have hremHolds : t.Holds (signedValue negative (m % radix)) :=
        holds_signedValue_of_le (Nat.mod_le m radix) hm
      have hdivHolds : t.Holds (signedValue negative (m / radix)) :=
        holds_signedValue_of_le (Nat.div_le_self m radix) hm
      have hrem : t.rem (t.ofInt (signedValue negative m)) (t.ofInt radix) =
          .ok (t.ofInt (signedValue negative (m % radix))) := by
        rw [rem, if_neg hbase, toInt_ofInt hm, toInt_ofInt hradixHolds, signedValue_tmod]
      have hdigit : (if negative then t.sub t.zero (t.ofInt (signedValue negative (m % radix)))
          else .ok (t.ofInt (signedValue negative (m % radix)))) =
          .ok (t.ofInt (m % radix : ℕ)) := by
        cases negative with
        | true =>
          have hholds : t.Holds ((m % radix : ℕ) : ℤ) := by
            unfold Holds at *
            omega
          have hsub : 0 - signedValue true (m % radix) = ((m % radix : ℕ) : ℤ) := by
            simp [signedValue]
          rw [if_pos rfl, sub, toInt_zero, toInt_ofInt hremHolds, hsub, fit_eq hholds]
        | false => rfl
      have hdiv : t.div (t.ofInt (signedValue negative m)) (t.ofInt radix) =
          .ok (t.ofInt (signedValue negative (m / radix))) := by
        rw [div_eq hbase, toInt_ofInt hm, toInt_ofInt hradixHolds, signedValue_tdiv,
          fit_eq hdivHolds]
      have hsmaller : m / radix < 2 ^ turns := by
        rw [pow_succ] at hturns
        exact Nat.div_lt_of_lt_mul (by nlinarith)
      have hdigits : Nat.digits radix m = m % radix :: Nat.digits radix (m / radix) :=
        Nat.digits_def' (by omega) (by omega)
      rw [if_neg hne, hrem, ok_bind, hdigit, ok_bind, digitByte_eq (by omega), ok_bind, hdiv, ok_bind,
        ih _ _ hdivHolds hsmaller, hdigits, map_cons,
        append_assoc, singleton_append]

end Digits

variable {signed : Bool} {text : List UInt8}

/-- The sign of a text of digits, and of one with a `-` before them. -/
theorem signLength_digits (h : text.head? ≠ some 45 ∧ text.head? ≠ some 43) :
    isNegative signed text = false ∧ signLength signed text = 0 := by
  have hneg : isNegative signed text = false := by
    rw [isNegative, decide_eq_false h.1, Bool.and_false]
  refine ⟨hneg, if_neg ?_⟩
  rw [hneg]
  exact not_or.mpr ⟨Bool.false_ne_true, h.2⟩

theorem isNegative_minus (text : List UInt8) : isNegative true (45 :: text) = true := rfl

/-- Digits denote their value, with or without a `-`. -/
theorem denotes_digits {negative : Bool} {radix m : ℕ} (hradix : 2 ≤ radix) (hradix' : radix ≤ 36)
    (hm : m ≠ 0) (hsign : negative = true → signed = true) :
    Denotes signed radix
      ((if negative then [45] else []) ++ ((Nat.digits radix m).map digitSymbol).reverse)
      (signedValue negative m) := by
  have hlt : ∀ d ∈ Nat.digits radix m, d < 36 := fun d hd =>
    (Nat.digits_lt_base hradix hd).trans_le hradix'
  generalize hdigits : ((Nat.digits radix m).map digitSymbol).reverse = digits
  have hne : digits ≠ [] := by
    rw [← hdigits, Ne, reverse_eq_nil_iff, map_eq_nil_iff]
    exact Nat.digits_ne_nil_iff_ne_zero.mpr hm
  have hmem : ∀ byte ∈ digits, ∃ d < radix, byte = digitSymbol d := by
    intro byte hbyte
    rw [← hdigits, mem_reverse] at hbyte
    obtain ⟨d, hd, rfl⟩ := mem_map.mp hbyte
    exact ⟨d, Nat.digits_lt_base hradix hd, rfl⟩
  have hvalid : ∀ byte ∈ digits, byteDigit byte < radix := by
    intro byte hbyte
    obtain ⟨d, hd, rfl⟩ := hmem byte hbyte
    rwa [byteDigit_symbol d (by omega)]
  have hvalue : value radix (digits.map byteDigit) = m := by
    have hmap : digits.map byteDigit = (Nat.digits radix m).reverse := by
      rw [← hdigits, map_reverse, map_map]
      congr 1
      exact (map_congr_left fun d hd => byteDigit_symbol d (hlt d hd)).trans (map_id _)
    rw [hmap, value, reverse_reverse, Nat.ofDigits_digits]
  cases negative with
  | true =>
    have hbody : body true (45 :: digits) = digits := by
      rw [body, signLength, isNegative_minus]
      rfl
    rw [hsign rfl, if_pos rfl, singleton_append]
    unfold Denotes
    rw [hbody, isNegative_minus, hvalue]
    exact ⟨hne, hvalid, rfl⟩
  | false =>
    have hhead : digits.head? ≠ some 45 ∧ digits.head? ≠ some 43 := by
      cases hcases : digits with
      | nil => exact absurd hcases hne
      | cons byte rest =>
        obtain ⟨d, hd, rfl⟩ := hmem byte (hcases ▸ mem_cons_self)
        have hsigns := symbol_no_sign d (by omega)
        rw [List.head?_cons, Ne, Ne, Option.some.injEq, Option.some.injEq]
        exact hsigns
    obtain ⟨hneg, hlength⟩ := @signLength_digits signed _ hhead
    have hbody : body signed digits = digits := by rw [body, hlength, drop_zero]
    rw [if_neg Bool.false_ne_true, nil_append]
    unfold Denotes
    rw [hbody, hneg, hvalue]
    exact ⟨hne, hvalid, rfl⟩

/-- **What `to_radix` writes** denotes the value. -/
theorem toRadix_denotes {t : IntType} (v : t.Value) {radix : ℕ} (hradix : 2 ≤ radix)
    (hradix' : radix ≤ 36) :
    ∃ text, toRadix v radix = .ok text ∧ Denotes t.signed radix text (t.toInt v) := by
  have hhigh := t.highest_ge
  have hcases := t.lowest_cases
  have hv := holds_toInt v
  unfold toRadix
  rw [if_neg (by omega)]
  dsimp only
  by_cases hzero : v = t.zero
  · rw [if_pos hzero, hzero, toInt_zero]
    refine ⟨[48], rfl, ?_⟩
    obtain ⟨hneg, hlength⟩ := @signLength_digits t.signed [48] (by decide)
    have hbody : body t.signed [48] = [48] := by rw [body, hlength, drop_zero]
    have hdigit : byteDigit 48 = 0 := rfl
    unfold Denotes
    rw [hbody, hneg]
    refine ⟨cons_ne_nil _ _, fun byte hbyte => ?_, ?_⟩
    · rw [mem_singleton.mp hbyte, hdigit]
      omega
    · rw [map_singleton, value_singleton, hdigit]
      rfl
  · have hne : t.toInt v ≠ 0 := mt eq_zero_iff.mpr hzero
    have hradixHolds : t.Holds radix := by
      unfold Holds at *
      omega
    have hvalue : t.toInt v = signedValue (t.lt v t.zero) (t.toInt v).natAbs := by
      rw [lt_zero_right, signedValue]
      split
      · next hneg =>
        have := of_decide_eq_true hneg
        omega
      · next hneg =>
        rw [decide_eq_true_eq] at hneg
        omega
    have hsign : t.lt v t.zero = true → t.signed = true := by
      intro hneg
      rw [lt_zero_right, decide_eq_true_eq] at hneg
      by_contra hsigned
      have hlow := lowest_of_unsigned (Bool.eq_false_iff.mpr hsigned)
      unfold Holds at hv
      omega
    have hturns : (t.toInt v).natAbs < 2 ^ t.width := by
      have htwo := t.two_pow_width
      have hpow := t.pow_width_ge
      have habs : ((t.toInt v).natAbs : ℤ) < 2 ^ t.width := by
        unfold Holds lowest highest at hv
        split at hv <;> omega
      exact_mod_cast habs
    have hrun := @reversedDigits_eq t (t.lt v t.zero) _ hradix hradix' t.width
      (t.toInt v).natAbs [] (hvalue ▸ hv) hturns
    rw [← hvalue, ofInt_toInt, nil_append] at hrun
    rw [if_neg hzero, fromI64, fit_eq hradixHolds, ok_bind, hrun, ok_bind]
    refine ⟨_, rfl, ?_⟩
    have hdenotes := denotes_digits (m := (t.toInt v).natAbs) hradix hradix' (by omega) hsign
    rwa [← hvalue] at hdenotes

/-! ### Both together -/

theorem Denotes.inj {radix : ℕ} {m n : ℤ} (h : Denotes signed radix text m)
    (h' : Denotes signed radix text n) : m = n :=
  h.2.2.trans h'.2.2.symm

/-- What a reader makes of a text that denotes a value in range. -/
theorem ReadsExactly.eq_ok {radix : ℕ} {t : IntType} {lo hi : ℤ}
    {result : Except Stop (Except ParseNumberError t.Value)}
    (h : ReadsExactly signed radix text t lo hi result) {v : t.Value}
    (hdenotes : Denotes signed radix text (t.toInt v)) (hrange : InRange lo hi (t.toInt v)) :
    result = .ok (.ok v) := by
  obtain ⟨r, rfl, hok, -⟩ := h
  rw [(hok v).mpr ⟨hdenotes, hrange⟩]

theorem signed_eq (t : IntType) : t.lt (~~~t.zero) t.zero = t.signed := by
  have hhigh := t.highest_ge
  rw [lt_zero_right, toInt_not_zero]
  cases t.signed with
  | false => exact decide_eq_false (by rw [if_neg Bool.false_ne_true]; omega)
  | true => exact decide_eq_true (by rw [if_pos rfl]; omega)

/-- **`parse_radix`** is exact. -/
theorem parseRadix_exact (t : IntType) (text : List UInt8) {radix : ℕ} (hradix : 2 ≤ radix)
    (hradix' : radix ≤ 36) :
    ReadsExactly t.signed radix text t t.lowest t.highest (parseRadix t text radix) := by
  have hhigh := t.highest_ge
  unfold parseRadix
  rw [if_neg (by omega), signed_eq]
  refine readNumber_exact ⟨hradix, hradix', t.holds_lowest, t.holds_highest, t.holds_zero.1, ?_, ?_⟩
    (fun _ => rfl) text
  · intro hsigned
    rw [lowest_of_signed hsigned]
    omega
  · omega

variable {high : ℤ}

variable {low : ℤ}

/-- **`parse_integer`** is exact, for bounds at least ten away from zero. -/
theorem parseInteger_exact (text : List UInt8) (hlow : IntType.i64.Holds low)
    (hhigh : IntType.i64.Holds high) (hlow' : low ≤ -10) (hhigh' : 10 ≤ high) :
    ReadsExactly true 10 text .i64 low high (parseInteger text low high) :=
  readNumber_exact ⟨by decide, by decide, hlow, hhigh, by omega, fun _ => hlow', hhigh'⟩
    decimalDigit_eq text

/-- **`parse_unsigned`** is exact, for a bound of at least ten. -/
theorem parseUnsigned_exact (text : List UInt8) (hhigh : IntType.u64.Holds high)
    (hhigh' : 10 ≤ high) :
    ReadsExactly false 10 text .u64 0 high (parseUnsigned text high) :=
  readNumber_exact ⟨by decide, by decide, u64.holds_zero, hhigh, le_rfl,
    fun h => absurd h Bool.false_ne_true, hhigh'⟩ decimalDigit_eq text

/-- The cast of what a reader of a wider type gives is what a reader of the type gives. -/
theorem ReadsExactly.cast {signed : Bool} {radix : ℕ} {text : List UInt8} {source t : IntType}
    {lo hi : ℤ} {result : Except Stop (Except ParseNumberError source.Value)}
    (h : ReadsExactly signed radix text source lo hi result)
    (hsource : ∀ n, InRange lo hi n → source.Holds n) (ht : ∀ n, InRange lo hi n → t.Holds n) :
    ReadsExactly signed radix text t lo hi (Primitive.cast t result) := by
  obtain ⟨r, rfl, hok, hempty, hinvalid⟩ := h
  cases r with
  | error e =>
    refine ⟨.error e, rfl, fun v => ⟨fun h => (nomatch h), fun hv => ?_⟩, ?_, fun p => ?_⟩
    · have hholds := hsource _ hv.2
      rw [← toInt_ofInt hholds] at hv
      exact nomatch (hok _).mpr hv
    · rw [← hempty]
      exact ⟨fun h => by cases h; rfl, fun h => by cases h; rfl⟩
    · rw [← hinvalid]
      exact ⟨fun h => by cases h; rfl, fun h => by cases h; rfl⟩
  | ok w =>
    obtain ⟨hdenotes, hrange⟩ := (hok w).mp rfl
    refine ⟨.ok (t.ofInt (source.toInt w)), rfl, fun v => ⟨fun h => ?_, fun hv => ?_⟩, ?_,
      fun p => ?_⟩
    · cases h
      rw [toInt_ofInt (ht _ hrange)]
      exact ⟨hdenotes, hrange⟩
    · rw [← hv.1.inj hdenotes, ofInt_toInt]
    · exact ⟨fun h => (nomatch h), fun h => absurd (hempty.mpr h) (fun h => (nomatch h))⟩
    · exact ⟨fun h => (nomatch h), fun h => absurd ((hinvalid p).mpr h) (fun h => (nomatch h))⟩

theorem i64_range : IntType.i64.lowest = -9223372036854775808 ∧
    IntType.i64.highest = 9223372036854775807 := by decide +kernel

theorem u64_range : IntType.u64.lowest = 0 ∧ IntType.u64.highest = 18446744073709551615 := by
  decide +kernel

theorem cast_parseInteger_exact (t : IntType) (text : List UInt8) (ht : t.signed = true)
    (hlow : t.lowest = low) (hhigh : t.highest = high) (hhigh64 : high ≤ 9223372036854775807) :
    ReadsExactly t.signed 10 text t t.lowest t.highest
      (Primitive.cast t (parseInteger text low high)) := by
  have hge := t.highest_ge
  have hsigned := lowest_of_signed ht
  obtain ⟨hlo64, hhi64⟩ := i64_range
  have hholds : ∀ n, InRange low high n → i64.Holds n := fun n hn => by
    unfold Holds InRange at *
    omega
  have hexact := parseInteger_exact text (hholds low ⟨le_rfl, by omega⟩)
    (hholds high ⟨by omega, le_rfl⟩) (by omega) (by omega)
  rw [ht, hlow, hhigh]
  refine hexact.cast hholds fun n hn => ?_
  unfold Holds InRange at *
  omega

theorem cast_parseUnsigned_exact (t : IntType) (text : List UInt8) (ht : t.signed = false)
    (hhigh : t.highest = high) (hhigh64 : high ≤ 18446744073709551615) :
    ReadsExactly t.signed 10 text t t.lowest t.highest
      (Primitive.cast t (parseUnsigned text high)) := by
  have hge := t.highest_ge
  have hlow := lowest_of_unsigned ht
  obtain ⟨hlo64, hhi64⟩ := u64_range
  have hholds : ∀ n, InRange 0 high n → u64.Holds n := fun n hn => by
    unfold Holds InRange at *
    omega
  have hexact := parseUnsigned_exact text (hholds high ⟨by omega, le_rfl⟩) (by omega)
  rw [ht, hlow, hhigh]
  refine hexact.cast hholds fun n hn => ?_
  unfold Holds InRange at *
  omega

/-- **`parse`** of each integer type is exact. -/
theorem parse_exact (p : Primitive) (text : List UInt8) :
    ReadsExactly p.type.signed 10 text p.type p.type.lowest p.type.highest (p.parse text) := by
  cases p with
  | i8 =>
    exact cast_parseInteger_exact .i8 text rfl (by decide +kernel) (by decide +kernel) (by decide)
  | i16 =>
    exact cast_parseInteger_exact .i16 text rfl (by decide +kernel) (by decide +kernel) (by decide)
  | i32 =>
    exact cast_parseInteger_exact .i32 text rfl (by decide +kernel) (by decide +kernel) (by decide)
  | i64 =>
    show ReadsExactly true 10 text .i64 i64.lowest i64.highest _
    rw [i64_range.1, i64_range.2]
    exact parseInteger_exact text (by decide +kernel) (by decide +kernel) (by decide) (by decide)
  | u8 => exact cast_parseUnsigned_exact .u8 text rfl (by decide +kernel) (by decide)
  | u16 => exact cast_parseUnsigned_exact .u16 text rfl (by decide +kernel) (by decide)
  | u32 => exact cast_parseUnsigned_exact .u32 text rfl (by decide +kernel) (by decide)
  | u64 =>
    show ReadsExactly false 10 text .u64 u64.lowest u64.highest _
    rw [u64_range.1, u64_range.2]
    exact parseUnsigned_exact text (by decide +kernel) (by decide)
  | usize => exact cast_parseUnsigned_exact .usize text rfl (by decide +kernel) (by decide)

/-- **Integer text is exact.** In every radix from 2 to 36 `parse_radix` gives back what `to_radix`
writes, and `parse` the decimal text; and the readers give a value exactly for a text that denotes it
in range, and otherwise an error, at the first offending offset when the digits before it are in
range. No operation on the way panics. -/
theorem integer_text_exact (t : IntType) (v : t.Value) (radix : ℕ) (text : List UInt8)
    (hradix : 2 ≤ radix) (hradix' : radix ≤ 36) (p : Primitive) (w : p.type.Value) :
    (toRadix v radix >>= fun text => parseRadix t text radix) = .ok (.ok v) ∧
      (toRadix w 10 >>= p.parse) = .ok (.ok w) ∧
      ReadsExactly t.signed radix text t t.lowest t.highest (parseRadix t text radix) ∧
      ReadsExactly p.type.signed 10 text p.type p.type.lowest p.type.highest (p.parse text) ∧
      (∀ low high, IntType.i64.Holds low → IntType.i64.Holds high → low ≤ -10 → 10 ≤ high →
        ReadsExactly true 10 text .i64 low high (parseInteger text low high)) ∧
      ∀ high, IntType.u64.Holds high → 10 ≤ high →
        ReadsExactly false 10 text .u64 0 high (parseUnsigned text high) := by
  refine ⟨?_, ?_, parseRadix_exact t text hradix hradix', parse_exact p text,
    fun _ _ => parseInteger_exact text, fun _ => parseUnsigned_exact text⟩
  · obtain ⟨written, hrun, hdenotes⟩ := toRadix_denotes v hradix hradix'
    rw [hrun, ok_bind]
    exact (parseRadix_exact t written hradix hradix').eq_ok hdenotes (holds_toInt v)
  · obtain ⟨written, hrun, hdenotes⟩ := toRadix_denotes w (by decide : 2 ≤ 10) (by decide)
    rw [hrun, ok_bind]
    exact (parse_exact p written).eq_ok hdenotes (holds_toInt w)

/-- `-3k` in radix 36 is the least `i8`. -/
theorem integer_text_exact_least :
    (toRadix (t := .i8) 128#8 36 >>= fun text => parseRadix .i8 text 36) = .ok (.ok 128#8) :=
  (integer_text_exact .i8 128#8 36 [] (by decide) (by decide) .i8 128#8).1

end HdLang.Num
