import HdLang.Lib.Numerals
import HdLang.Num.Exact
import HdLang.Num.Text

/-!
# Reading integers

The loop of the readers is the walk `scan` over the digits, in which the check of each step is that the
number read so far stays between the bounds. Numbers read only grow away from zero, so the last of
them is between the bounds when the whole is (`scan_ok_iff`).
-/

namespace HdLang.Num

open IntType Positional List

/-- The number of a magnitude and a sign. -/
def signedValue (negative : Bool) (magnitude : ℕ) : ℤ := if negative then -magnitude else magnitude

/-- `n` is between the bounds. -/
def InRange (lo hi n : ℤ) : Prop := lo ≤ n ∧ n ≤ hi

instance (lo hi n : ℤ) : Decidable (InRange lo hi n) := inferInstanceAs (Decidable (_ ∧ _))

/-- The digits from offset `index` on, with the magnitude read before them. -/
def scan (negative : Bool) (lo hi : ℤ) (radix : ℕ) :
    ℕ → ℕ → List UInt8 → Except ParseNumberError ℤ
  | _, magnitude, [] => .ok (signedValue negative magnitude)
  | index, magnitude, byte :: rest =>
    if radix ≤ byteDigit byte then
      .error (.invalidDigit index)
    else if InRange lo hi (signedValue negative (magnitude * radix + byteDigit byte)) then
      scan negative lo hi radix (index + 1) (magnitude * radix + byteDigit byte) rest
    else
      .error .outOfRange

variable {digitOf : UInt8 → Option ℕ}

section Loop

variable {t : IntType} {negative : Bool} {lo hi : ℤ} {radix : ℕ}

/-- A reader's bounds: numbers of the type, at least a digit away from zero where it is read toward
them. -/
structure Bounds (t : IntType) (signed : Bool) (lo hi : ℤ) (radix : ℕ) : Prop where
  radix_ge : 2 ≤ radix
  radix_le : radix ≤ 36
  holds_lo : t.Holds lo
  holds_hi : t.Holds hi
  lo_le : lo ≤ 0
  lo_le_radix : signed = true → lo ≤ -radix
  radix_le_hi : (radix : ℤ) ≤ hi

theorem Bounds.holds_radix {signed : Bool} (h : Bounds t signed lo hi radix) : t.Holds radix := by
  have hzero := t.holds_zero
  have hle := h.radix_le_hi
  have hhi := h.holds_hi
  unfold Holds at hzero hhi ⊢
  omega

theorem Bounds.holds {signed : Bool} (h : Bounds t signed lo hi radix) {n : ℤ}
    (hn : InRange lo hi n) : t.Holds n := by
  have hlo := h.holds_lo
  have hhi := h.holds_hi
  unfold Holds InRange at *
  omega

/-- **The loop of the readers** is a scan. -/
theorem readFrom_eq (h : Bounds t negative lo hi radix)
    (hdigit : ∀ byte, digitOf byte = if byteDigit byte ≥ radix then none else some (byteDigit byte))
    (front rest : List UInt8) (magnitude : ℕ) (hn : InRange lo hi (signedValue negative magnitude)) :
    readFrom t negative (t.ofInt lo) (t.ofInt hi) (t.ofInt radix) digitOf (front ++ rest)
        front.length (t.ofInt (signedValue negative magnitude)) =
      .ok ((scan negative lo hi radix front.length magnitude rest).map t.ofInt) := by
  induction rest generalizing front magnitude with
  | nil =>
    rw [readFrom, dif_neg (by simp)]
    rfl
  | cons byte rest ih =>
    have hget : ∀ h : front.length < (front ++ byte :: rest).length,
        (front ++ byte :: rest)[front.length] = byte := fun _ => by simp
    have hnext : front ++ byte :: rest = front ++ [byte] ++ rest := by simp
    have hlen : front.length + 1 = (front ++ [byte]).length := by simp
    rw [readFrom, dif_pos (by simp), hget, hdigit, scan]
    by_cases hbad : byteDigit byte ≥ radix
    · rw [if_pos hbad, if_pos hbad]
      rfl
    · rw [if_neg hbad, if_neg hbad]
      have hlow := h.lo_le
      have hhigh := h.radix_le_hi
      have hradix := h.radix_ge
      have hlt : (byteDigit byte : ℤ) < radix := by omega
      have hholdsLo := h.holds_lo
      have hholdsHi := h.holds_hi
      have hzero := t.holds_zero
      have hholds := h.holds hn
      have hdigitHolds : t.Holds (byteDigit byte : ℤ) := by
        have := h.holds_radix
        unfold Holds at *
        omega
      have hpos : (0 : ℤ) < radix := by omega
      have hradixNe : t.toInt (t.ofInt radix) ≠ 0 := by
        rw [toInt_ofInt h.holds_radix]
        omega
      dsimp only
      rw [fromI64, fit_eq hdigitHolds, ok_bind]
      cases negative with
      | true =>
        have hloRadix := h.lo_le_radix rfl
        have hvalue : signedValue true (magnitude * radix + byteDigit byte) =
            signedValue true magnitude * radix - byteDigit byte := by
          simp only [signedValue, if_true]
          push_cast
          ring
        have hnonpos : signedValue true magnitude * radix ≤ 0 :=
          mul_nonpos_of_nonpos_of_nonneg (by simp [signedValue]) (by omega)
        have hsum : t.Holds (lo + byteDigit byte) := by
          unfold Holds at *
          omega
        have hbound : t.Holds ((lo + byteDigit byte).tdiv radix) := by
          have hbetween := (tdiv_between (m := lo + byteDigit byte) hpos).2 (by omega)
          unfold Holds at *
          omega
        rw [if_pos rfl, add, toInt_ofInt hholdsLo, toInt_ofInt hdigitHolds, fit_eq hsum, ok_bind,
          div_eq hradixNe, toInt_ofInt hsum, toInt_ofInt h.holds_radix, fit_eq hbound,
          ok_bind, lt_ofInt' _ hbound, toInt_ofInt hholds]
        have hguard := lt_tdiv_iff (m := lo + byteDigit byte)
          (x := signedValue true magnitude) (y := radix) (by omega) hpos
        by_cases hover : signedValue true magnitude < (lo + byteDigit byte).tdiv radix
        · have hout : ¬InRange lo hi (signedValue true (magnitude * radix + byteDigit byte)) := by
            rw [hvalue]
            unfold InRange
            have := hguard.mp hover
            omega
          rw [if_pos (decide_eq_true hover), if_neg hout]
          rfl
        · have hin : InRange lo hi (signedValue true (magnitude * radix + byteDigit byte)) := by
            rw [hvalue]
            unfold InRange
            have := mt hguard.mpr hover
            omega
          have hscaled : t.Holds (signedValue true magnitude * radix) := by
            have := mt hguard.mpr hover
            unfold Holds at *
            omega
          rw [if_neg (by rw [decide_eq_true_eq]; exact hover), if_pos hin, mul, toInt_ofInt hholds,
            toInt_ofInt h.holds_radix, fit_eq hscaled, ok_bind, sub,
            toInt_ofInt hscaled, toInt_ofInt hdigitHolds, ← hvalue, fit_eq (h.holds hin), ok_bind,
            hnext, hlen]
          exact ih (front ++ [byte]) _ hin
      | false =>
        have hvalue : signedValue false (magnitude * radix + byteDigit byte) =
            signedValue false magnitude * radix + byteDigit byte := by
          simp only [signedValue, Bool.false_eq_true, if_false]
          push_cast
          ring
        have hnonneg : 0 ≤ signedValue false magnitude * radix :=
          mul_nonneg (by simp [signedValue]) (by omega)
        have hdifference : t.Holds (hi - byteDigit byte) := by
          unfold Holds at *
          omega
        have hbound : t.Holds ((hi - byteDigit byte).tdiv radix) := by
          have hbetween := (tdiv_between (m := hi - byteDigit byte) hpos).1 (by omega)
          unfold Holds at *
          omega
        rw [if_neg Bool.false_ne_true, sub, toInt_ofInt hholdsHi, toInt_ofInt hdigitHolds,
          fit_eq hdifference, ok_bind, div_eq hradixNe, toInt_ofInt hdifference,
          toInt_ofInt h.holds_radix, fit_eq hbound, ok_bind, lt_ofInt _ hbound, toInt_ofInt hholds]
        have hguard := tdiv_lt_iff (m := hi - byteDigit byte)
          (x := signedValue false magnitude) (y := radix) (by omega) hpos
        by_cases hover : (hi - byteDigit byte).tdiv radix < signedValue false magnitude
        · have hout : ¬InRange lo hi (signedValue false (magnitude * radix + byteDigit byte)) := by
            rw [hvalue]
            unfold InRange
            have := hguard.mp hover
            omega
          rw [if_pos (decide_eq_true hover), if_neg hout]
          rfl
        · have hin : InRange lo hi (signedValue false (magnitude * radix + byteDigit byte)) := by
            rw [hvalue]
            unfold InRange
            have := mt hguard.mpr hover
            omega
          have hscaled : t.Holds (signedValue false magnitude * radix) := by
            have := mt hguard.mpr hover
            unfold Holds at *
            omega
          rw [if_neg (by rw [decide_eq_true_eq]; exact hover), if_pos hin, mul, toInt_ofInt hholds,
            toInt_ofInt h.holds_radix, fit_eq hscaled, ok_bind, add,
            toInt_ofInt hscaled, toInt_ofInt hdigitHolds, ← hvalue, fit_eq (h.holds hin), ok_bind,
            hnext, hlen]
          exact ih (front ++ [byte]) _ hin

end Loop

/-! ### Scans -/

section Scans

variable {negative : Bool} {lo hi : ℤ} {radix : ℕ}

/-- The magnitude after the digits. -/
def extend (radix magnitude : ℕ) (digits : List UInt8) : ℕ :=
  magnitude * radix ^ digits.length + value radix (digits.map byteDigit)

theorem extend_nil (magnitude : ℕ) : extend radix magnitude [] = magnitude := by
  simp [extend]

theorem extend_cons (magnitude : ℕ) (byte : UInt8) (rest : List UInt8) :
    extend radix magnitude (byte :: rest) =
      extend radix (magnitude * radix + byteDigit byte) rest := by
  unfold extend
  rw [map_cons, value_cons, length_cons, length_map, pow_succ]
  ring

theorem extend_zero (digits : List UInt8) :
    extend radix 0 digits = value radix (digits.map byteDigit) := by
  rw [extend, zero_mul, zero_add]

theorem le_extend (hradix : 1 ≤ radix) (magnitude : ℕ) (digits : List UInt8) :
    magnitude ≤ extend radix magnitude digits := by
  unfold extend
  have hpow : 1 ≤ radix ^ digits.length := Nat.one_le_pow _ _ hradix
  have := Nat.mul_le_mul_left magnitude hpow
  omega

/-- A number of smaller magnitude and the same sign is between the bounds too. -/
theorem InRange.of_le {m n : ℕ} (hlo : lo ≤ 0) (hhi : 0 ≤ hi) (hle : m ≤ n)
    (h : InRange lo hi (signedValue negative n)) : InRange lo hi (signedValue negative m) := by
  unfold InRange signedValue at *
  cases negative with
  | true =>
    rw [if_pos rfl] at h ⊢
    omega
  | false =>
    rw [if_neg Bool.false_ne_true] at h ⊢
    omega

/-- **A scan gives a number** exactly when every byte is a digit and the number is in range. -/
theorem scan_ok_iff (hradix : 1 ≤ radix) (hlo : lo ≤ 0) (hhi : 0 ≤ hi) {index magnitude : ℕ}
    {digits : List UInt8} {n : ℤ} (hm : InRange lo hi (signedValue negative magnitude)) :
    scan negative lo hi radix index magnitude digits = .ok n ↔
      (∀ byte ∈ digits, byteDigit byte < radix) ∧
        n = signedValue negative (extend radix magnitude digits) ∧ InRange lo hi n := by
  induction digits generalizing index magnitude with
  | nil =>
    rw [scan, extend_nil, Except.ok.injEq]
    constructor
    · rintro rfl
      exact ⟨fun byte h => absurd h not_mem_nil, rfl, hm⟩
    · exact fun h => h.2.1.symm
  | cons byte rest ih =>
    rw [scan, extend_cons, forall_mem_cons]
    by_cases hbad : radix ≤ byteDigit byte
    · rw [if_pos hbad]
      exact ⟨fun h => (nomatch h), fun h => absurd h.1.1 (Nat.not_lt.mpr hbad)⟩
    · rw [if_neg hbad]
      by_cases hin : InRange lo hi (signedValue negative (magnitude * radix + byteDigit byte))
      · rw [if_pos hin, ih hin]
        exact ⟨fun h => ⟨⟨Nat.lt_of_not_le hbad, h.1⟩, h.2⟩, fun h => ⟨h.1.2, h.2⟩⟩
      · rw [if_neg hin]
        refine ⟨fun h => (nomatch h), ?_⟩
        rintro ⟨-, rfl, hrange⟩
        exact absurd (hrange.of_le hlo hhi (le_extend hradix _ rest)) hin

/-- **A scan reports a byte** exactly when it is the first that is no digit, and the number before
it is in range. -/
theorem scan_invalidDigit_iff (hradix : 1 ≤ radix) (hlo : lo ≤ 0) (hhi : 0 ≤ hi)
    {index magnitude p : ℕ} {digits : List UInt8}
    (hm : InRange lo hi (signedValue negative magnitude)) :
    scan negative lo hi radix index magnitude digits = .error (.invalidDigit p) ↔
      ∃ good bad rest, digits = good ++ bad :: rest ∧ p = index + good.length ∧
        (∀ byte ∈ good, byteDigit byte < radix) ∧ radix ≤ byteDigit bad ∧
        InRange lo hi (signedValue negative (extend radix magnitude good)) := by
  induction digits generalizing index magnitude with
  | nil =>
    rw [scan]
    refine ⟨fun h => (nomatch h), ?_⟩
    rintro ⟨good, bad, rest, h, -⟩
    cases good <;> cases h
  | cons byte rest ih =>
    rw [scan]
    by_cases hbad : radix ≤ byteDigit byte
    · rw [if_pos hbad]
      constructor
      · intro h
        cases h
        refine ⟨[], byte, rest, rfl, rfl, fun byte h => absurd h not_mem_nil, hbad, ?_⟩
        rwa [extend_nil]
      · rintro ⟨good, bad, rest', hsplit, rfl, hgood, -, -⟩
        cases good with
        | nil => rfl
        | cons head good =>
          cases hsplit
          exact absurd (hgood _ mem_cons_self) (Nat.not_lt.mpr hbad)
    · rw [if_neg hbad]
      by_cases hin : InRange lo hi (signedValue negative (magnitude * radix + byteDigit byte))
      · rw [if_pos hin, ih hin]
        constructor
        · rintro ⟨good, bad, rest', rfl, rfl, hgood, hbad', hrange⟩
          refine ⟨byte :: good, bad, rest', rfl, ?_,
            forall_mem_cons.mpr ⟨Nat.lt_of_not_le hbad, hgood⟩, hbad', ?_⟩
          · rw [length_cons]
            omega
          · rwa [extend_cons]
        · rintro ⟨good, bad, rest', hsplit, rfl, hgood, hbad', hrange⟩
          cases good with
          | nil =>
            cases hsplit
            exact absurd hbad' hbad
          | cons head good =>
            cases hsplit
            refine ⟨good, bad, rest', rfl, ?_, (forall_mem_cons.mp hgood).2, hbad', ?_⟩
            · rw [length_cons]
              omega
            · rwa [extend_cons] at hrange
      · rw [if_neg hin]
        refine ⟨fun h => (nomatch h), ?_⟩
        rintro ⟨good, bad, rest', hsplit, -, -, hbad', hrange⟩
        cases good with
        | nil =>
          cases hsplit
          exact absurd hbad' hbad
        | cons head good =>
          cases hsplit
          rw [extend_cons] at hrange
          exact absurd (hrange.of_le hlo hhi (le_extend hradix _ good)) hin

theorem scan_ne_empty {index magnitude : ℕ} {digits : List UInt8} :
    scan negative lo hi radix index magnitude digits ≠ .error .empty := by
  induction digits generalizing index magnitude with
  | nil => exact fun h => (nomatch h)
  | cons byte rest ih =>
    rw [scan]
    split
    · exact fun h => (nomatch h)
    · split
      · exact ih
      · exact fun h => (nomatch h)

end Scans

/-! ### The grammar -/

section Grammar

variable (signed : Bool) (radix : ℕ) (text : List UInt8)

/-- The text starts with a `-` that is a sign. -/
def isNegative : Bool := signed && text.head? = some 45

/-- How many bytes the sign takes. -/
def signLength : ℕ := if isNegative signed text = true ∨ text.head? = some 43 then 1 else 0

/-- The text after its sign. -/
def body : List UInt8 := text.drop (signLength signed text)

/-- The text is an optional sign, a `-` only where `signed`, and one or more digits of the radix, and
denotes `n`. -/
def Denotes (n : ℤ) : Prop :=
  body signed text ≠ [] ∧ (∀ byte ∈ body signed text, byteDigit byte < radix) ∧
    n = signedValue (isNegative signed text) (value radix ((body signed text).map byteDigit))

/-- Offset `p` is the first at which the text is no number: where its digits should start, and it
ends, or at the first byte after its sign that is no digit; and the number before it is between the
bounds. -/
def Offends (lo hi : ℤ) (p : ℕ) : Prop :=
  text ≠ [] ∧
    ((body signed text = [] ∧ p = signLength signed text) ∨
      ∃ good bad rest, body signed text = good ++ bad :: rest ∧
        p = signLength signed text + good.length ∧ (∀ byte ∈ good, byteDigit byte < radix) ∧
        radix ≤ byteDigit bad ∧
        InRange lo hi (signedValue (isNegative signed text) (value radix (good.map byteDigit))))

/-- `result` is an integer of `text` between the bounds, or its first error. -/
def ReadsExactly (t : IntType) (lo hi : ℤ)
    (result : Except Stop (Except ParseNumberError t.Value)) : Prop :=
  ∃ r, result = .ok r ∧
    (∀ v, r = .ok v ↔ Denotes signed radix text (t.toInt v) ∧ InRange lo hi (t.toInt v)) ∧
    (r = .error .empty ↔ text = []) ∧
    ∀ p, r = .error (.invalidDigit p) ↔ Offends signed radix text lo hi p

end Grammar

variable {t : IntType} {signed : Bool} {lo hi : ℤ} {radix : ℕ}

theorem map_eq_ok {α β : Type} {f : α → β} {x : Except ParseNumberError α} {b : β}
    (h : x.map f = .ok b) : ∃ a, x = .ok a ∧ b = f a := by
  cases x with
  | error e => cases h
  | ok a =>
    cases h
    exact ⟨a, rfl, rfl⟩

theorem map_eq_error {α β : Type} {f : α → β} {x : Except ParseNumberError α} {e : ParseNumberError}
    (h : x.map f = .error e) : x = .error e := by
  cases x with
  | error e' =>
    cases h
    rfl
  | ok a => cases h

/-- **A reader** of digits of the radix, with bounds, is exact. -/
theorem readNumber_exact (h : Bounds t signed lo hi radix)
    (hdigit : ∀ byte, digitOf byte = if byteDigit byte ≥ radix then none else some (byteDigit byte))
    (text : List UInt8) :
    ReadsExactly signed radix text t lo hi
      (readNumber t signed (t.ofInt lo) (t.ofInt hi) radix digitOf text) := by
  have hradix := h.radix_ge
  have hradixHi := h.radix_le_hi
  have hhi : 0 ≤ hi := by omega
  unfold readNumber
  dsimp only
  by_cases hsize : text.length = 0
  · have hnil := length_eq_zero_iff.mp hsize
    rw [if_pos hsize]
    subst hnil
    refine ⟨_, rfl, fun v => ⟨fun h => (nomatch h), fun h => absurd drop_nil h.1.1⟩,
      ⟨fun _ => rfl, fun _ => rfl⟩, fun p => ⟨fun h => (nomatch h), fun h => absurd rfl h.1⟩⟩
  · have hne : text ≠ [] := fun h => hsize (h ▸ rfl)
    have hbodyLen : (body signed text).length = text.length - signLength signed text := length_drop
    have hsignLe : signLength signed text ≤ text.length := by
      unfold signLength
      split <;> omega
    rw [if_neg hsize]
    show ReadsExactly signed radix text t lo hi
      (if signLength signed text = text.length then
        .ok (.error (.invalidDigit (signLength signed text))) else _)
    by_cases hlone : signLength signed text = text.length
    · have hbody : body signed text = [] := length_eq_zero_iff.mp (by omega)
      rw [if_pos hlone]
      refine ⟨_, rfl, fun v => ⟨fun h => (nomatch h), fun h => absurd hbody h.1.1⟩,
        ⟨fun h => (nomatch h), fun h => absurd h hne⟩, fun p => ⟨fun h => ?_, fun h => ?_⟩⟩
      · cases h
        exact ⟨hne, .inl ⟨hbody, rfl⟩⟩
      · obtain ⟨-, ⟨-, rfl⟩ | ⟨good, bad, rest, hsplit, -⟩⟩ := h
        · rfl
        · rw [hbody] at hsplit
          cases good <;> cases hsplit
    · have hbody : body signed text ≠ [] := fun h => by
        rw [h, length_nil] at hbodyLen
        omega
      have hbounds : Bounds t (isNegative signed text) lo hi radix :=
        { h with lo_le_radix := fun hneg => h.lo_le_radix (Bool.and_eq_true_iff.mp hneg).1 }
      have hzero : InRange lo hi (signedValue (isNegative signed text) 0) := by
        have hlo := h.lo_le
        unfold InRange signedValue
        split <;> simp <;> omega
      have hstart : t.zero = t.ofInt (signedValue (isNegative signed text) 0) := by
        unfold signedValue zero
        split <;> rfl
      have hfront : (text.take (signLength signed text)).length = signLength signed text :=
        length_take_of_le hsignLe
      have hrun := readFrom_eq hbounds hdigit (text.take (signLength signed text))
        (body signed text) 0 hzero
      rw [hfront, body, take_append_drop, ← hstart] at hrun
      rw [if_neg hlone, fromI64, fit_eq h.holds_radix, ok_bind]
      have hok := fun n => @scan_ok_iff _ _ _ _ (by omega : 1 ≤ radix) h.lo_le hhi
        (signLength signed text) _ (body signed text) n hzero
      have hinvalid := fun p => @scan_invalidDigit_iff _ _ _ _ (by omega : 1 ≤ radix) h.lo_le hhi
        (signLength signed text) _ p (body signed text) hzero
      simp only [extend_zero] at hok hinvalid
      refine ⟨_, hrun, fun v => ?_, ?_, fun p => ?_⟩
      · constructor
        · intro hv
          obtain ⟨n, hn, rfl⟩ := map_eq_ok hv
          obtain ⟨hall, hvalue, hrange⟩ := (hok n).mp hn
          rw [toInt_ofInt (h.holds hrange)]
          exact ⟨⟨hbody, hall, hvalue⟩, hrange⟩
        · rintro ⟨⟨-, hall, hvalue⟩, hrange⟩
          have hscan := (hok (t.toInt v)).mpr ⟨hall, hvalue, hrange⟩
          refine (congrArg (Except.map t.ofInt) hscan).trans ?_
          exact congrArg Except.ok (ofInt_toInt v)
      · exact ⟨fun h => absurd (map_eq_error h) scan_ne_empty, fun h => absurd h hne⟩
      · constructor
        · exact fun h => ⟨hne, .inr ((hinvalid p).mp (map_eq_error h))⟩
        · rintro ⟨-, ⟨hnil, -⟩ | h⟩
          · exact absurd hnil hbody
          · exact congrArg (Except.map t.ofInt) ((hinvalid p).mpr h)

end HdLang.Num
