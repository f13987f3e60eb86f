import HdLang.Arith
import Mathlib.Algebra.Order.Ring.Int
import Mathlib.Data.Nat.Size

/-!
# The integer methods of `std.num`

The methods are written once for every integer type, and so here: a type is its signedness and its
width, a value is a pattern of that many bits, and `toInt` reads it. The operators are those of a debug
or test build, which panic where a result does not fit; a release build differs only there.
-/

namespace HdLang.Num

/-- The panic of a division by zero. -/
def divisionByZero : Stop := .panic "integer-division-by-zero" "division by zero"

/-- The panic of a shift by at least the width. -/
def invalidShift : Stop := .panic "invalid-shift" "shift count out of range"

/-- An integer type. -/
structure IntType where
  signed : Bool
  width : ℕ
  width_ge : 8 ≤ width

namespace IntType

def i8 : IntType := ⟨true, 8, by decide⟩
def i16 : IntType := ⟨true, 16, by decide⟩
def i32 : IntType := ⟨true, 32, by decide⟩
def i64 : IntType := ⟨true, 64, by decide⟩
def u8 : IntType := ⟨false, 8, by decide⟩
def u16 : IntType := ⟨false, 16, by decide⟩
def u32 : IntType := ⟨false, 32, by decide⟩
def u64 : IntType := ⟨false, 64, by decide⟩

/-- `usize` on Wasm32. -/
def usize : IntType := ⟨false, 32, by decide⟩

variable (t : IntType)

/-- A value of the type. -/
abbrev Value : Type := BitVec t.width

/-- The least number of the type. -/
def lowest : ℤ := if t.signed then -2 ^ (t.width - 1) else 0

/-- The greatest number of the type. -/
def highest : ℤ := if t.signed then 2 ^ (t.width - 1) - 1 else 2 ^ t.width - 1

/-- `n` is a number of the type. -/
def Holds (n : ℤ) : Prop := t.lowest ≤ n ∧ n ≤ t.highest

instance (n : ℤ) : Decidable (t.Holds n) := inferInstanceAs (Decidable (_ ∧ _))

/-- The number that a value is. -/
def toInt (v : t.Value) : ℤ := if t.signed then BitVec.toInt v else (BitVec.toNat v : ℤ)

/-- The value of a number, wrapped to the width. -/
def ofInt (n : ℤ) : t.Value := BitVec.ofInt t.width n

/-! ### Operators -/

/-- The value of a result. -/
def fit (n : ℤ) : Except Stop t.Value := if t.Holds n then .ok (t.ofInt n) else .error overflow

/-- `N::zero()` -/
def zero : t.Value := t.ofInt 0

/-- `N::one()` -/
def one : t.Value := t.ofInt 1

/-- `N::from_i64(n)` -/
def fromI64 (n : ℤ) : Except Stop t.Value := t.fit n

def intMin : t.Value := t.ofInt t.lowest

def intMax : t.Value := t.ofInt t.highest

variable (a b : t.Value)

/-- `a < b` -/
def lt : Bool := t.toInt a < t.toInt b

/-- `a + b` -/
def add : Except Stop t.Value := t.fit (t.toInt a + t.toInt b)

/-- `a - b` -/
def sub : Except Stop t.Value := t.fit (t.toInt a - t.toInt b)

/-- `a * b` -/
def mul : Except Stop t.Value := t.fit (t.toInt a * t.toInt b)

/-- `a / b` -/
def div : Except Stop t.Value :=
  if t.toInt b = 0 then .error divisionByZero else t.fit ((t.toInt a).tdiv (t.toInt b))

/-- `a % b` -/
def rem : Except Stop t.Value :=
  if t.toInt b = 0 then .error divisionByZero else .ok (t.ofInt ((t.toInt a).tmod (t.toInt b)))

/-- `a << count` -/
def shl (count : ℕ) : Except Stop t.Value :=
  if count < t.width then .ok (a <<< count) else .error invalidShift

/-- `a >> count` -/
def shr (count : ℕ) : Except Stop t.Value :=
  if count < t.width then .ok (if t.signed then a.sshiftRight count else a >>> count)
  else .error invalidShift

end IntType

/-- `a && b`: `b` is evaluated when `a` holds. -/
def andThen (a : Bool) (b : Except Stop Bool) : Except Stop Bool := if a then b else .ok false

section Methods

variable {t : IntType} (self other : t.Value)

def checkedAdd : Except Stop (Option t.Value) := do
  let zero := t.zero
  let above ← andThen (t.lt zero other) do
    let bound ← t.sub t.intMax other
    return t.lt bound self
  if above then
    return none
  else
    let below ← andThen (t.lt other zero) do
      let bound ← t.sub t.intMin other
      return t.lt self bound
    if below then
      return none
    else
      let sum ← t.add self other
      return some sum

def checkedSub : Except Stop (Option t.Value) := do
  let zero := t.zero
  let below ← andThen (t.lt zero other) do
    let bound ← t.add t.intMin other
    return t.lt self bound
  if below then
    return none
  else
    let above ← andThen (t.lt other zero) do
      let bound ← t.add t.intMax other
      return t.lt bound self
    if above then
      return none
    else
      let difference ← t.sub self other
      return some difference

/-- Whether the product of two values other than zero overflows. -/
def mulOverflows : Except Stop Bool := do
  let zero := t.zero
  let lowest := t.intMin
  let highest := t.intMax
  if t.lt zero self then
    if t.lt zero other then
      let bound ← t.div highest other
      return t.lt bound self
    else
      let bound ← t.div lowest self
      return t.lt other bound
  else
    if t.lt zero other then
      let bound ← t.div lowest other
      return t.lt self bound
    else
      let bound ← t.div highest self
      return t.lt other bound

def checkedMul : Except Stop (Option t.Value) := do
  let zero := t.zero
  if self = zero ∨ other = zero then
    return some zero
  else
    let overflows ← mulOverflows self other
    if overflows then
      return none
    else
      let product ← t.mul self other
      return some product

def checkedDiv : Except Stop (Option t.Value) := do
  let zero := t.zero
  if other = zero then
    return none
  else
    let minusOne := ~~~zero
    if t.lt minusOne zero ∧ other = minusOne ∧ self = t.intMin then
      return none
    else
      let quotient ← t.div self other
      return some quotient

def saturatingAdd : Except Stop t.Value := do
  match ← checkedAdd self other with
  | some sum => return sum
  | none => return if t.lt t.zero other then t.intMax else t.intMin

def saturatingSub : Except Stop t.Value := do
  match ← checkedSub self other with
  | some difference => return difference
  | none => return if t.lt t.zero other then t.intMin else t.intMax

/-- `leading_zeros`: the zero bits above the highest one bit. -/
def leadingZeros : ℕ := t.width - self.toNat.size

def rotateLeft (count : ℕ) : Except Stop t.Value := do
  let zero := t.zero
  let width := leadingZeros zero
  let shift := count % width
  if shift = 0 then
    return self
  else
    let ones ← t.shl (~~~zero) shift
    let lowMask := ~~~ones
    let high ← t.shl self shift
    let low ← t.shr self (width - shift)
    return high ||| (low &&& lowMask)

def rotateRight (count : ℕ) : Except Stop t.Value :=
  let width := leadingZeros t.zero
  let shift := count % width
  if shift = 0 then .ok self else rotateLeft self (width - shift)

/-- The loop of `pow`. -/
def powFrom (result base : t.Value) (rest : ℕ) : Except Stop t.Value :=
  if _h : rest = 0 then
    .ok result
  else do
    let result ← (if rest &&& 1 = 1 then t.mul result base else .ok result)
    let base ← (if rest >>> 1 ≠ 0 then t.mul base base else .ok base)
    powFrom result base (rest >>> 1)
termination_by rest
decreasing_by
  rw [Nat.shiftRight_one]
  omega

def pow (exp : ℕ) : Except Stop t.Value := powFrom t.one self exp

end Methods

end HdLang.Num
