import HdLang.Num.Halves
import Mathlib.Data.Nat.Periodic
import Mathlib.Data.Int.ConditionallyCompleteOrder
import Mathlib.Data.Int.Interval

/-!
# Random integers

`Rng` draws from the xoshiro128** generator of `SeededRandom`, whose four 32-bit words are kept in
`u64`s. `below` draws until the draw is not among the first `2^64 mod count`, and `int` counts the
values of a range in `u64` and gives the one at a random offset.
-/

namespace HdLang.Random

open HdLang.Num Nat Finset IntType

/-! ### The generator -/

structure SeededRandom where
  s0 : U64
  s1 : U64
  s2 : U64
  s3 : U64
  deriving DecidableEq, Repr

def low32 (x : U64) : U64 := x &&& 0xFFFFFFFF

def rotl32 (x : U64) (k : ℕ) : Except Stop U64 := do
  let high ← shlU64 x k
  let low ← shrU64 x (32 - k)
  return low32 (high ||| low)

def mix32 (z : U64) : Except Stop U64 := do
  let a ← mulU64 (z ^^^ (← shrU64 z 16)) 0x85EBCA6B
  let a := low32 a
  let a ← mulU64 (a ^^^ (← shrU64 a 13)) 0xC2B2AE35
  let a := low32 a
  return a ^^^ (← shrU64 a 16)

namespace SeededRandom

def new (seed : U64) : Except Stop SeededRandom := do
  let z := low32 (seed ^^^ (← shrU64 seed 32))
  let z := low32 (← addU64 z 0x9E3779B9)
  let a ← mix32 z
  let z := low32 (← addU64 z 0x9E3779B9)
  let b ← mix32 z
  let z := low32 (← addU64 z 0x9E3779B9)
  let c ← mix32 z
  let z := low32 (← addU64 z 0x9E3779B9)
  return ⟨a, b, c, ← mix32 z⟩

def output32 (state : SeededRandom) : Except Stop U64 := do
  let product ← mulU64 state.s1 5
  let rotated ← rotl32 (low32 product) 7
  return low32 (← mulU64 rotated 9)

def advanced (state : SeededRandom) : Except Stop SeededRandom := do
  let t := low32 (← shlU64 state.s1 9)
  let s2 := state.s2 ^^^ state.s0
  let s3 := state.s3 ^^^ state.s1
  let s1 := state.s1 ^^^ s2
  let s0 := state.s0 ^^^ s3
  return ⟨s0, s1, s2 ^^^ t, ← rotl32 s3 11⟩

def nextU64 (state : SeededRandom) : Except Stop (U64 × SeededRandom) := do
  let high ← output32 state
  let next ← advanced state
  let after ← advanced next
  return ((← shlU64 high 32) ||| (← output32 next), after)

end SeededRandom

/-! ### The draws of a range -/

/-- A `u64` as the number it is. -/
def number (x : U64) : ℤ := x.toNat

/-- The draws of `below` from `x` on, until one reaches the threshold; none after `fuel` of them. -/
def redraw (threshold : ℤ) : ℕ → U64 × SeededRandom → Except Stop (Option (U64 × SeededRandom))
  | 0, _ => return none
  | fuel + 1, (x, state) =>
    if number x < threshold then do redraw threshold fuel (← state.nextU64)
    else return some (x, state)

/-- `below`: a draw below `count`, none when the first `fuel` draws are all drawn again. -/
def below (fuel : ℕ) (count : ℤ) (state : SeededRandom) :
    Except Stop (Option (ℤ × SeededRandom)) := do
  if count = 0 then
    let (x, state) ← state.nextU64
    return some (number x, state)
  else
    let largest := 0xFFFFFFFFFFFFFFFF
    let room ← IntType.u64.sum (← IntType.u64.difference largest count) 1
    let threshold ← IntType.remainder room count
    match ← redraw threshold fuel (← state.nextU64) with
    | none => return none
    | some (x, state) => return some (← IntType.remainder (number x) count, state)

/-- `Range[N]`, for an integer type -/
structure Range where
  start : ℤ
  stop : ℤ
  inclusive : Bool
  deriving DecidableEq, Repr

variable (t : IntType)

def toU64 (n : ℤ) : Except Stop ℤ := if n < 0 then .error overflow else .ok n

def fromU64 (n : ℤ) : Except Stop ℤ := if t.highest < n then .error overflow else .ok n

/-- `(zero - (bound + one)).to_u64() + 1`: the magnitude of a negative bound. -/
def magnitude (bound : ℤ) : Except Stop ℤ := do
  let above ← t.sum bound 1
  let opposite ← t.difference 0 above
  IntType.u64.sum (← toU64 opposite) 1

/-- The count that `int` passes to `below`. -/
def rangeCount (range : Range) : Except Stop ℤ := do
  let count ←
    (if 0 ≤ range.start then do
      IntType.u64.difference (← toU64 range.stop) (← toU64 range.start)
    else do
      let low ← magnitude t range.start
      if 0 ≤ range.stop then IntType.u64.sum (← toU64 range.stop) low
      else IntType.u64.difference low (← magnitude t range.stop))
  if range.inclusive then
    if count = 0xFFFFFFFFFFFFFFFF then return 0 else IntType.u64.sum count 1
  else return count

/-- The value that `int` gives at an offset. -/
def rangeValue (range : Range) (offset : ℤ) : Except Stop ℤ := do
  if 0 ≤ range.start then
    fromU64 t (← IntType.u64.sum (← toU64 range.start) offset)
  else
    let low ← magnitude t range.start
    if offset < low then
      let rest ← IntType.u64.difference (← IntType.u64.difference low offset) 1
      t.difference (← t.difference 0 (← fromU64 t rest)) 1
    else fromU64 t (← IntType.u64.difference offset low)

def int (fuel : ℕ) (range : Range) (state : SeededRandom) :
    Except Stop (Option (ℤ × SeededRandom)) := do
  if range.stop < range.start ∨ (range.start = range.stop ∧ range.inclusive = false) then
    .error (.panic "explicit-panic" "std.random: empty range")
  else
    let count ← rangeCount t range
    match ← below fuel count state with
    | none => return none
    | some (offset, state) => return some (← rangeValue t range offset, state)

/-! ### The generator has no overflow -/

/-- The four words of the generator. -/
structure Words where
  s0 : BitVec 32
  s1 : BitVec 32
  s2 : BitVec 32
  s3 : BitVec 32

namespace Words

/-- The words in `u64`s. -/
def state (w : Words) : SeededRandom := ⟨wide w.s0, wide w.s1, wide w.s2, wide w.s3⟩

/-- The output of xoshiro128**. -/
def output (w : Words) : BitVec 32 := (w.s1 * 5).rotateLeft 7 * 9

/-- The step of xoshiro128**. -/
def next (w : Words) : Words where
  s0 := w.s0 ^^^ (w.s3 ^^^ w.s1)
  s1 := w.s1 ^^^ (w.s2 ^^^ w.s0)
  s2 := (w.s2 ^^^ w.s0) ^^^ (w.s1 <<< 9)
  s3 := (w.s3 ^^^ w.s1).rotateLeft 11

/-- A draw: two outputs, the first one high. -/
def draw (w : Words) : U64 := (wide w.output <<< 32) ||| wide w.next.output

/-- The words after a draw. -/
def after (w : Words) : Words := w.next.next

end Words

theorem low32_eq (x : U64) : low32 x = wide (half x) := and_mask x

theorem rotl32_wide (w : BitVec 32) {k : ℕ} (hk : k < 32) :
    rotl32 (wide w) k = .ok (wide (w.rotateLeft k)) := by
  rw [rotl32, shlU64_eq (by omega), ok_bind, shrU64_eq (by omega), ok_bind, pure_eq, low32_eq,
    half_rotate w hk]

theorem wide_shiftRight (w : BitVec 32) (k : ℕ) : wide w >>> k = wide (w >>> k) := by
  apply BitVec.eq_of_toNat_eq
  rw [toNat_wide, BitVec.toNat_ushiftRight, BitVec.toNat_ushiftRight, toNat_wide]

theorem mix32_wide (w : BitVec 32) : ∃ v, mix32 (wide w) = .ok (wide v) := by
  rw [mix32, shrU64_eq (by decide), ok_bind, wide_shiftRight, wide_xor]
  show ∃ v, (mulU64 (wide _) (wide 0x85EBCA6B) >>= _) = _
  rw [mulU64_wide, ok_bind, low32_eq]
  generalize half (wide (w ^^^ w >>> 16) * wide 0x85EBCA6B) = a
  show ∃ v, (shrU64 (wide a) 13 >>= _) = _
  rw [shrU64_eq (by decide), ok_bind, wide_shiftRight, wide_xor]
  show ∃ v, (mulU64 (wide _) (wide 0xC2B2AE35) >>= _) = _
  rw [mulU64_wide, ok_bind, low32_eq]
  generalize half (wide (a ^^^ a >>> 13) * wide 0xC2B2AE35) = b
  refine ⟨b ^^^ b >>> 16, ?_⟩
  show (shrU64 (wide b) 16 >>= _) = _
  rw [shrU64_eq (by decide), ok_bind, wide_shiftRight, pure_eq, wide_xor]

theorem addU64_gamma (w : BitVec 32) :
    ∃ v z, addU64 (wide w) 0x9E3779B9 = .ok v ∧ low32 v = wide z :=
  ⟨_, _, addU64_wide w 0x9E3779B9, low32_eq _⟩

theorem output32_state (w : Words) : w.state.output32 = .ok (wide w.output) := by
  rw [SeededRandom.output32]
  show (mulU64 (wide w.s1) (wide 5) >>= _) = _
  rw [mulU64_wide, ok_bind, low32_eq, half_mul, half_wide, half_wide, rotl32_wide _ (by decide),
    ok_bind]
  show (mulU64 (wide _) (wide 9) >>= _) = _
  rw [mulU64_wide, ok_bind, pure_eq, low32_eq, half_mul, half_wide, half_wide]
  rfl

theorem advanced_state (w : Words) : w.state.advanced = .ok w.next.state := by
  rw [SeededRandom.advanced]
  show (shlU64 (wide w.s1) 9 >>= _) = _
  rw [shlU64_eq (by decide), ok_bind, low32_eq, half_shiftLeft]
  show (rotl32 (wide w.s3 ^^^ wide w.s1) 11 >>= _) = _
  rw [wide_xor, rotl32_wide _ (by decide), ok_bind, pure_eq]
  simp only [Words.state, Words.next, wide_xor]

theorem nextU64_state (w : Words) : w.state.nextU64 = .ok (w.draw, w.after.state) := by
  rw [SeededRandom.nextU64, output32_state, ok_bind, advanced_state, ok_bind, advanced_state,
    ok_bind,
    shlU64_eq (by decide), ok_bind, output32_state, ok_bind, pure_eq]
  rfl

theorem new_state (seed : U64) : ∃ w : Words, SeededRandom.new seed = .ok w.state := by
  rw [SeededRandom.new, shrU64_eq (by decide), ok_bind, low32_eq]
  generalize half (seed ^^^ seed >>> 32) = z
  obtain ⟨v₁, z₁, hz₁, hlow₁⟩ := addU64_gamma z
  obtain ⟨a, ha⟩ := mix32_wide z₁
  obtain ⟨v₂, z₂, hz₂, hlow₂⟩ := addU64_gamma z₁
  obtain ⟨b, hb⟩ := mix32_wide z₂
  obtain ⟨v₃, z₃, hz₃, hlow₃⟩ := addU64_gamma z₂
  obtain ⟨c, hc⟩ := mix32_wide z₃
  obtain ⟨v₄, z₄, hz₄, hlow₄⟩ := addU64_gamma z₃
  obtain ⟨d, hd⟩ := mix32_wide z₄
  refine ⟨⟨a, b, c, d⟩, ?_⟩
  show (addU64 (wide z) 0x9E3779B9 >>= _) = _
  rw [hz₁, ok_bind, hlow₁]
  show (mix32 (wide z₁) >>= _) = _
  rw [ha, ok_bind, hz₂, ok_bind, hlow₂]
  show (mix32 (wide z₂) >>= _) = _
  rw [hb, ok_bind, hz₃, ok_bind, hlow₃]
  show (mix32 (wide z₃) >>= _) = _
  rw [hc, ok_bind, hz₄, ok_bind, hlow₄]
  show (mix32 (wide z₄) >>= _) = _
  rw [hd, ok_bind, pure_eq, Words.state]

/-! ### The values of a range -/

variable {range : Range}

namespace Range

/-- The values of a range. -/
noncomputable def values (range : Range) : Finset ℤ :=
  if range.inclusive then Finset.Icc range.start range.stop else Finset.Ico range.start range.stop

theorem mem_values {v : ℤ} :
    v ∈ range.values ↔ range.start ≤ v ∧ v < range.start + range.values.card := by
  unfold values
  split
  · rw [mem_Icc, Int.card_Icc]
    omega
  · rw [mem_Ico, Int.card_Ico]
    omega

end Range

variable {t}

theorem limits (ht : t.width ≤ 64) : t.highest ≤ 18446744073709551615 ∧
    (t.lowest = 0 ∨ (t.lowest = -t.highest - 1 ∧ t.highest ≤ 9223372036854775807)) := by
  have hwidth := t.width_ge
  have hpow : (2 : ℤ) ^ (t.width - 1) ≤ 2 ^ 63 := pow_le_pow_right₀ (by decide) (by omega)
  have hdouble := t.two_pow_width
  cases hsigned : t.signed with
  | false =>
    refine ⟨?_, .inl (lowest_of_unsigned hsigned)⟩
    rw [highest, hsigned, if_neg Bool.false_ne_true]
    omega
  | true =>
    have hhighest : t.highest ≤ 9223372036854775807 := by
      rw [highest, hsigned, if_pos rfl]
      omega
    exact ⟨by omega, .inr ⟨lowest_of_signed hsigned, hhighest⟩⟩

theorem toU64_eq {n : ℤ} (h : 0 ≤ n) : toU64 n = .ok n := if_neg (not_lt.mpr h)

theorem fromU64_eq {n : ℤ} (h : n ≤ t.highest) : fromU64 t n = .ok n := if_neg (not_lt.mpr h)

theorem sumU64_eq {a b : ℤ} (h : 0 ≤ a + b) (h' : a + b ≤ 18446744073709551615) :
    IntType.u64.sum a b = .ok (a + b) := sum_eq ⟨h, h'⟩

theorem differenceU64_eq {a b : ℤ} (h : b ≤ a) (h' : a - b ≤ 18446744073709551615) :
    IntType.u64.difference a b = .ok (a - b) := difference_eq ⟨sub_nonneg.mpr h, h'⟩

/-- The magnitude of a negative bound, the least one too. -/
theorem magnitude_eq (ht : t.width ≤ 64) {bound : ℤ} (hbound : t.Holds bound) (hneg : bound < 0) :
    magnitude t bound = .ok (-bound) := by
  obtain ⟨hhigh, hlow⟩ := limits ht
  obtain ⟨hlowest, hhighest⟩ := hbound
  have hmost := t.highest_ge
  rw [magnitude, sum_eq ⟨by omega, by omega⟩, ok_bind, difference_eq ⟨by omega, by omega⟩, ok_bind,
    toU64_eq (by omega), ok_bind,
    sumU64_eq (by omega) (by omega)]
  exact congrArg _ (by omega)

/-- **The count of a range**: the number of its values, zero for all of `u64`. -/
theorem rangeCount_eq (ht : t.width ≤ 64) (hstart : t.Holds range.start)
    (hstop : t.Holds range.stop) (hvalues : range.values.Nonempty) :
    rangeCount t range =
      .ok (if range.values.card = 2 ^ 64 then 0 else (range.values.card : ℤ)) := by
  obtain ⟨hhigh, hlow⟩ := limits ht
  have hmost := t.highest_ge
  have hle : range.start ≤ range.stop := by
    obtain ⟨v, hv⟩ := hvalues
    unfold Range.values at hv
    split at hv
    · exact (mem_Icc.mp hv).1.trans (mem_Icc.mp hv).2
    · exact ((mem_Ico.mp hv).1.trans_lt (mem_Ico.mp hv).2).le
  obtain ⟨hstart₁, hstart₂⟩ := hstart
  obtain ⟨hstop₁, hstop₂⟩ := hstop
  -- each sign combination gives the difference of the bounds
  have hcount : (if 0 ≤ range.start then do
        u64.difference (← toU64 range.stop) (← toU64 range.start)
      else do
        let low ← magnitude t range.start
        if 0 ≤ range.stop then u64.sum (← toU64 range.stop) low
        else u64.difference low (← magnitude t range.stop)) =
      .ok (range.stop - range.start) := by
    split
    · next hpos =>
      rw [toU64_eq (by omega), ok_bind, toU64_eq hpos, ok_bind, differenceU64_eq hle (by omega)]
    · next hneg =>
      rw [magnitude_eq ht ⟨hstart₁, hstart₂⟩ (by omega), ok_bind]
      split
      · next hpos =>
        rw [toU64_eq hpos, ok_bind, sumU64_eq (by omega) (by omega)]
        exact congrArg _ (by omega)
      · next hneg' =>
        rw [magnitude_eq ht ⟨hstop₁, hstop₂⟩ (by omega), ok_bind, differenceU64_eq (by omega)
          (by omega)]
        exact congrArg _ (by omega)
  rw [rangeCount, hcount, ok_bind]
  cases hinclusive : range.inclusive with
  | false =>
    have hcard : (range.values.card : ℤ) = range.stop - range.start := by
      rw [Range.values, hinclusive, if_neg Bool.false_ne_true, Int.card_Ico]
      omega
    rw [if_neg Bool.false_ne_true, pure_eq, if_neg (by omega), hcard]
  | true =>
    have hcard : (range.values.card : ℤ) = range.stop + 1 - range.start := by
      rw [Range.values, hinclusive, if_pos rfl, Int.card_Icc]
      omega
    rw [if_pos rfl]
    split
    · next hall => rw [if_pos (by omega), pure_eq]
    · next hsome =>
      rw [if_neg (by omega), hcard, sumU64_eq (by omega) (by omega)]
      exact congrArg _ (by omega)

/-- **The value at an offset**, with no operation that overflows. -/
theorem rangeValue_eq (ht : t.width ≤ 64) (hstart : t.Holds range.start)
    (hstop : t.Holds range.stop) {offset : ℤ} (hpos : 0 ≤ offset) (hlt : offset < range.values.card)
    :
    rangeValue t range offset = .ok (range.start + offset) := by
  obtain ⟨hhigh, hlow⟩ := limits ht
  have hmost := t.highest_ge
  have hmem : range.start + offset ∈ range.values := Range.mem_values.mpr ⟨by omega, by omega⟩
  have hle : range.start + offset ≤ range.stop := by
    unfold Range.values at hmem
    split at hmem
    · exact (mem_Icc.mp hmem).2
    · exact (mem_Ico.mp hmem).2.le
  obtain ⟨hstart₁, hstart₂⟩ := hstart
  obtain ⟨hstop₁, hstop₂⟩ := hstop
  unfold rangeValue
  split
  · next hstart =>
    rw [toU64_eq hstart, ok_bind, sumU64_eq (by omega) (by omega), ok_bind, fromU64_eq (by omega)]
  · next hneg =>
    rw [magnitude_eq ht ⟨hstart₁, hstart₂⟩ (by omega), ok_bind]
    split
    · next hbelow =>
      rw [differenceU64_eq (by omega) (by omega), ok_bind, differenceU64_eq (by omega) (by omega),
        ok_bind, fromU64_eq (by omega), ok_bind, difference_eq ⟨by omega, by omega⟩, ok_bind,
        difference_eq ⟨by omega, by omega⟩]
      exact congrArg _ (by omega)
    · next habove =>
      rw [differenceU64_eq (by omega) (by omega), ok_bind, fromU64_eq (by omega)]
      exact congrArg _ (by omega)

/-! ### The draws below a count -/

/-- The number of draws a count stands for. -/
def size (count : ℕ) : ℕ := if count = 0 then 2 ^ 64 else count

/-- A draw is not among the first `2^64 mod count`. -/
def Accepts (count n : ℕ) : Prop := 2 ^ 64 % size count ≤ n

instance (count n : ℕ) : Decidable (Accepts count n) := inferInstanceAs (Decidable (_ ≤ _))

/-- The `i`-th draw. -/
def Words.drawAt (w : Words) (i : ℕ) : ℕ := (Words.after^[i] w).draw.toNat

variable {w : Words}

theorem redraw_accepts {threshold k fuel : ℕ} (hk : k < fuel)
    (hbefore : ∀ i < k, w.drawAt i < threshold) (hat : threshold ≤ w.drawAt k) :
    redraw threshold fuel (w.draw, w.after.state) =
      .ok (some ((Words.after^[k] w).draw, (Words.after^[k + 1] w).state)) := by
  induction k generalizing fuel w with
  | zero =>
    obtain ⟨fuel, rfl⟩ := exists_eq_succ_of_ne_zero hk.ne'
    have hge : ¬number w.draw < threshold := not_lt.mpr (Int.ofNat_le.mpr hat)
    rw [redraw, if_neg hge]
    rfl
  | succ k ih =>
    obtain ⟨fuel, rfl⟩ := exists_eq_succ_of_ne_zero (by omega : fuel ≠ 0)
    have hlt : number w.draw < threshold := Int.ofNat_lt.mpr (hbefore 0 (by omega))
    rw [redraw, if_pos hlt, nextU64_state, ok_bind]
    exact ih (by omega) (fun i hi => hbefore (i + 1) (by omega)) hat

theorem redraw_none {threshold fuel : ℕ} (hbefore : ∀ i < fuel, w.drawAt i < threshold) :
    redraw threshold fuel (w.draw, w.after.state) = .ok none := by
  induction fuel generalizing w with
  | zero => rfl
  | succ fuel ih =>
    have hlt : number w.draw < threshold := Int.ofNat_lt.mpr (hbefore 0 (by omega))
    rw [redraw, if_pos hlt, nextU64_state, ok_bind]
    exact ih fun i hi => hbefore (i + 1) (by omega)

theorem threshold_eq {count : ℕ} (hpos : count ≠ 0) :
    (0xFFFFFFFFFFFFFFFF - (count : ℤ) + 1) % (count : ℤ) = ((2 ^ 64 % size count : ℕ) : ℤ) := by
  have hroom : (0xFFFFFFFFFFFFFFFF - (count : ℤ) + 1) = (2 ^ 64 : ℕ) - (count : ℤ) := by
    push_cast
    ring
  rw [hroom, Int.sub_emod_right, size, if_neg hpos, Int.natCast_mod]

/-- `below`, from the draw that its loop ends with. -/
theorem below_redraw {count fuel : ℕ} (hpos : count ≠ 0) (hlt : count < 2 ^ 64)
    {taken : Option (U64 × SeededRandom)}
    (h : redraw (2 ^ 64 % size count : ℕ) fuel (w.draw, w.after.state) = .ok taken) :
    below fuel count w.state =
      .ok (taken.map fun (x, state) => (((x.toNat % size count : ℕ) : ℤ), state)) := by
  have hsize : size count = count := if_neg hpos
  have hcount : (count : ℤ) ≠ 0 := by omega
  rw [below, if_neg hcount]
  show (u64.difference 0xFFFFFFFFFFFFFFFF (count : ℤ) >>= _) = _
  rw [differenceU64_eq (by omega) (by omega), ok_bind, sumU64_eq (by omega) (by omega), ok_bind,
    remainder_eq (by omega) hcount, ok_bind,
    threshold_eq hpos, nextU64_state, ok_bind, h, ok_bind]
  cases taken with
  | none => rfl
  | some pair =>
    obtain ⟨x, state⟩ := pair
    show (remainder (number x) count >>= _) = _
    rw [remainder_eq (show 0 ≤ number x from Int.natCast_nonneg _) hcount, ok_bind, hsize]
    rfl

theorem below_eq {count : ℕ} (hcount : count < 2 ^ 64) (fuel : ℕ) (w : Words) :
    (∀ k < fuel, (∀ i < k, ¬Accepts count (w.drawAt i)) → Accepts count (w.drawAt k) →
        below fuel count w.state =
          .ok (some (((w.drawAt k % size count : ℕ) : ℤ), (Words.after^[k + 1] w).state))) ∧
      (0 < fuel → (∀ i < fuel, ¬Accepts count (w.drawAt i)) → below fuel count w.state = .ok none)
      := by
  by_cases hzero : count = 0
  · -- every draw is taken
    subst hzero
    have hall : ∀ n, Accepts 0 n := fun n => Nat.zero_le n
    refine ⟨fun k hk hbefore hat => ?_, fun hfuel hnone => absurd (hall _) (hnone 0 hfuel)⟩
    obtain rfl : k = 0 := by
      by_contra hne
      exact hbefore 0 (by omega) (hall _)
    rw [below, if_pos Int.natCast_zero, nextU64_state, ok_bind, mod_eq_of_lt]
    · rfl
    · exact BitVec.isLt _
  · refine ⟨fun k hk hbefore hat => ?_, fun _ hnone => ?_⟩
    · exact below_redraw hzero hcount (redraw_accepts hk (fun i hi => not_le.mp (hbefore i hi)) hat)
    · exact below_redraw hzero hcount (redraw_none fun i hi => not_le.mp (hnone i hi))

theorem card_residue {c r : ℕ} (hr : r < c) (a q : ℕ) :
    ((Finset.Ico a (a + c * q)).filter (· % c = r)).card = q := by
  induction q with
  | zero => simp
  | succ q ih =>
    have hperiod : ((Finset.Ico (a + c * q) (a + c * q + c)).filter (· % c = r)).card = 1 := by
      rw [filter_Ico_card_eq_of_periodic _ _ _ fun n => by rw [add_mod_right],
        count_eq_card_filter_range, card_eq_one]
      refine ⟨r, ext fun x => ?_⟩
      rw [mem_filter, mem_range, mem_singleton]
      constructor
      · rintro ⟨hx, hmod⟩
        rwa [mod_eq_of_lt hx] at hmod
      · rintro rfl
        exact ⟨hr, mod_eq_of_lt hr⟩
    have hsplit : Finset.Ico a (a + c * (q + 1)) =
        Finset.Ico a (a + c * q) ∪ Finset.Ico (a + c * q) (a + c * q + c) := by
      rw [Finset.Ico_union_Ico_eq_Ico (Nat.le_add_right _ _) (Nat.le_add_right _ _), Nat.mul_succ,
        Nat.add_assoc]
    rw [hsplit, filter_union, card_union_of_disjoint, ih, hperiod]
    exact disjoint_filter_filter (Finset.Ico_disjoint_Ico_consecutive _ _ _)

/-- Past the first `n mod c` numbers below `n`, each residue occurs equally often. -/
theorem card_past {c r : ℕ} (hr : r < c) (n : ℕ) :
    ((Finset.range n).filter fun x => n % c ≤ x ∧ x % c = r).card = n / c := by
  have hmod := mod_add_div n c
  have hfilter : ((range n).filter fun x => n % c ≤ x ∧ x % c = r) =
      (Finset.Ico (n % c) (n % c + c * (n / c))).filter (· % c = r) := by
    rw [hmod]
    ext x
    simp only [mem_filter, mem_range, mem_Ico]
    tauto
  rw [hfilter, card_residue hr]

/-- Each remainder is the image of equally many accepted draws. -/
theorem card_accepted {count r : ℕ} (hr : r < size count) :
    ((Finset.range (2 ^ 64)).filter fun n => Accepts count n ∧ n % size count = r).card =
      2 ^ 64 / size count := card_past hr (2 ^ 64)

/-! ### Random integers -/

/-- The count that stands for a range's number of values. -/
noncomputable def Range.count (range : Range) : ℕ :=
  if range.values.card = 2 ^ 64 then 0 else range.values.card

theorem card_values_le (ht : t.width ≤ 64) (hstart : t.Holds range.start)
    (hstop : t.Holds range.stop) : range.values.card ≤ 2 ^ 64 := by
  obtain ⟨hhigh, hlow⟩ := limits ht
  obtain ⟨hstart₁, hstart₂⟩ := hstart
  obtain ⟨hstop₁, hstop₂⟩ := hstop
  unfold Range.values
  split
  · rw [Int.card_Icc]
    omega
  · rw [Int.card_Ico]
    omega

theorem count_spec (ht : t.width ≤ 64) (hstart : t.Holds range.start) (hstop : t.Holds range.stop)
    (hvalues : range.values.Nonempty) :
    range.count < 2 ^ 64 ∧ size range.count = range.values.card := by
  have hle := card_values_le ht hstart hstop
  have hpos := hvalues.card_pos
  unfold Range.count size
  split
  · next hall => exact ⟨by decide, by rw [if_pos rfl, hall]⟩
  · next hsome => exact ⟨by omega, if_neg (by omega)⟩

theorem not_empty (hvalues : range.values.Nonempty) :
    ¬(range.stop < range.start ∨ (range.start = range.stop ∧ range.inclusive = false)) := by
  obtain ⟨v, hv⟩ := hvalues
  unfold Range.values at hv
  rintro (hlt | ⟨heq, hexclusive⟩)
  · split at hv
    · have := mem_Icc.mp hv
      omega
    · have := mem_Ico.mp hv
      omega
  · rw [hexclusive, if_neg Bool.false_ne_true, mem_Ico] at hv
    omega

theorem int_below (ht : t.width ≤ 64) (hstart : t.Holds range.start) (hstop : t.Holds range.stop)
    (hvalues : range.values.Nonempty) (fuel : ℕ) (state : SeededRandom) :
    (below fuel range.count state = .ok none → int t fuel range state = .ok none) ∧
      ∀ offset : ℕ, offset < range.values.card → ∀ after,
        below fuel range.count state = .ok (some ((offset : ℤ), after)) →
        int t fuel range state = .ok (some (range.start + offset, after)) := by
  have hcount : rangeCount t range = .ok (range.count : ℤ) := by
    rw [rangeCount_eq ht hstart hstop hvalues, Range.count]
    exact congrArg _ (by split <;> rfl)
  have hint : int t fuel range state = (below fuel range.count state >>= fun
      | none => .ok none
      | some (offset, state) => do return some (← rangeValue t range offset, state)) := by
    rw [int, if_neg (not_empty hvalues), hcount, ok_bind]
    rfl
  refine ⟨fun h => by rw [hint, h]; rfl, fun offset hoffset after h => ?_⟩
  rw [hint, h, ok_bind]
  show (rangeValue t range offset >>= _) = _
  rw [rangeValue_eq ht hstart hstop (Int.natCast_nonneg _) (Int.ofNat_lt.mpr hoffset), ok_bind]
  rfl

/-- **Random integers are uniform on their range.** For a range with values of an integer type of at
most 64 bits, `int` passes the number of the values to `below`, zero for `2^64`, and the offset of
the first draw that `below` accepts picks the value at that offset from the least one, with no
operation that overflows; the offsets are the values, in order. `below` accepts a draw unless it is
among the first `2^64 mod count`, and so each remainder is the image of `2^64 / count` accepted
draws. -/
theorem int_uniform (ht : t.width ≤ 64) (range : Range) (hstart : t.Holds range.start)
    (hstop : t.Holds range.stop) (hvalues : range.values.Nonempty) :
    rangeCount t range = .ok (range.count : ℤ) ∧
      (∀ offset : ℕ, offset < range.values.card →
        rangeValue t range offset = .ok (range.start + offset)) ∧
      (∀ v, v ∈ range.values ↔ ∃ offset : ℕ, offset < range.values.card ∧ v = range.start + offset)
      ∧
      (∀ fuel (w : Words),
        (∀ k < fuel, (∀ i < k, ¬Accepts range.count (w.drawAt i)) → Accepts range.count (w.drawAt k)
        →
          int t fuel range w.state = .ok (some
            (range.start + (w.drawAt k % range.values.card : ℕ), (Words.after^[k + 1] w).state))) ∧
        (0 < fuel → (∀ i < fuel, ¬Accepts range.count (w.drawAt i)) →
          int t fuel range w.state = .ok none)) ∧
      (∀ seed, ∃ w : Words, SeededRandom.new seed = .ok w.state) ∧
      ∀ count < 2 ^ 64,
        (∀ fuel (w : Words),
          (∀ k < fuel, (∀ i < k, ¬Accepts count (w.drawAt i)) → Accepts count (w.drawAt k) →
            below fuel count w.state =
              .ok (some (((w.drawAt k % size count : ℕ) : ℤ), (Words.after^[k + 1] w).state))) ∧
          (0 < fuel → (∀ i < fuel, ¬Accepts count (w.drawAt i)) →
            below fuel count w.state = .ok none)) ∧
        ∀ r < size count,
          ((Finset.range (2 ^ 64)).filter fun n => Accepts count n ∧ n % size count = r).card =
            2 ^ 64 / size count := by
  obtain ⟨hlt, hsize⟩ := count_spec ht hstart hstop hvalues
  refine ⟨?_, ?_, ?_, ?_, new_state, fun count hcount =>
    ⟨fun fuel w => below_eq hcount fuel w, fun r hr => card_accepted hr⟩⟩
  · rw [rangeCount_eq ht hstart hstop hvalues, Range.count]
    exact congrArg _ (by split <;> rfl)
  · intro offset hoffset
    exact rangeValue_eq ht hstart hstop (Int.natCast_nonneg _) (Int.ofNat_lt.mpr hoffset)
  · intro v
    rw [Range.mem_values]
    constructor
    · rintro ⟨hle, hlt⟩
      exact ⟨(v - range.start).toNat, by omega, by omega⟩
    · rintro ⟨offset, hoffset, rfl⟩
      exact ⟨by omega, by omega⟩
  · intro fuel w
    obtain ⟨haccepts, hnone⟩ := below_eq hlt fuel w
    obtain ⟨hintNone, hint⟩ := int_below ht hstart hstop hvalues fuel w.state
    refine ⟨fun k hk hbefore hat => ?_, fun hfuel hall => hintNone (hnone hfuel hall)⟩
    refine hint _ (Nat.mod_lt _ hvalues.card_pos) _ ?_
    rw [haccepts k hk hbefore hat, hsize]

/-- The least `i64` is the first value of the range of all of them. -/
theorem int_uniform_i64 :
    rangeValue .i64 ⟨-2 ^ 63, 2 ^ 63 - 1, true⟩ 0 = .ok (-2 ^ 63) := by
  have hvalues : (Range.mk (-2 ^ 63) (2 ^ 63 - 1) true).values.Nonempty :=
    ⟨0, Finset.mem_Icc.mpr (by decide)⟩
  have ht : IntType.i64.width ≤ 64 := by decide
  exact (int_uniform ht _ (by decide) (by decide) hvalues).2.1 0 hvalues.card_pos

end HdLang.Random
