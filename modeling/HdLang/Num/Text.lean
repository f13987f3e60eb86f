import HdLang.Num.Model

/-!
# Integer text

The text of an integer in a radix, and its readers. A text is the list of its bytes. `parse_radix`,
`parse_integer` and `parse_unsigned` are one reader, `readNumber`, at the type, the bounds and the
digits of each. The loop of `to_radix` is given as many turns as the type has bits; that it needs no
more is part of what is proved of it.
-/

namespace HdLang.Num

inductive ParseNumberError
  | empty
  | invalidDigit (position : ℕ)
  | outOfRange
  deriving DecidableEq, Repr

/-! ### Digits -/

section Digits

variable {t : IntType}

/-- The loop of `digit_byte`: the bits of a digit from `bit` on, added up. -/
def digitBits (digit : t.Value) (bit value : ℕ) : Except Stop ℕ :=
  if _h : bit < 6 then do
    let shifted ← t.shr digit bit
    digitBits digit (bit + 1)
      (if shifted &&& t.one ≠ t.zero then value + 1 <<< bit else value)
  else
    .ok value
termination_by 6 - bit

def digitByte (digit : t.Value) : Except Stop UInt8 := do
  let value ← digitBits digit 0 0
  return if value < 10 then UInt8.ofNat (48 + value) else UInt8.ofNat (87 + value)

end Digits

def byteDigit (byte : UInt8) : ℕ :=
  if byte ≥ 48 ∧ byte ≤ 57 then (byte - 48).toNat
  else if byte ≥ 97 ∧ byte ≤ 122 then (byte - 87).toNat
  else if byte ≥ 65 ∧ byte ≤ 90 then (byte - 55).toNat
  else 255

/-! ### Writing -/

section Writing

variable {t : IntType}

/-- The first loop of `to_radix`: the digits of `rest`, the last one first. -/
def reversedDigits (base : t.Value) (negative : Bool) :
    ℕ → t.Value → List UInt8 → Except Stop (List UInt8)
  | turns, rest, reversed =>
    if rest = t.zero then
      .ok reversed
    else
      match turns with
      | 0 => .error .diverges
      | turns + 1 => do
        let rem ← t.rem rest base
        let digit ← (if negative then t.sub t.zero rem else .ok rem)
        let byte ← digitByte digit
        let rest ← t.div rest base
        reversedDigits base negative turns rest (reversed ++ [byte])

def toRadix (self : t.Value) (radix : ℕ) : Except Stop (List UInt8) :=
  if radix < 2 ∨ radix > 36 then
    .error (.panic "explicit-panic" "to_radix: the radix must be 2 to 36")
  else
    let zero := t.zero
    if self = zero then
      .ok [48]
    else do
      let base ← t.fromI64 radix
      let negative := t.lt self zero
      let reversed ← reversedDigits base negative t.width self []
      return (if negative then [45] else []) ++ reversed.reverse

end Writing

/-! ### Reading -/

section Reading

variable (t : IntType)

/-- The loop of the readers, from `index` on. -/
def readFrom (negative : Bool) (low high base : t.Value) (digitOf : UInt8 → Option ℕ)
    (text : List UInt8) (index : ℕ) (value : t.Value) :
    Except Stop (Except ParseNumberError t.Value) :=
  if _h : index < text.length then
    match digitOf text[index] with
    | none => .ok (.error (.invalidDigit index))
    | some found => do
      let digit ← t.fromI64 found
      if negative then do
        let sum ← t.add low digit
        let bound ← t.div sum base
        if t.lt value bound then
          .ok (.error .outOfRange)
        else do
          let scaled ← t.mul value base
          let value ← t.sub scaled digit
          readFrom negative low high base digitOf text (index + 1) value
      else do
        let difference ← t.sub high digit
        let bound ← t.div difference base
        if t.lt bound value then
          .ok (.error .outOfRange)
        else do
          let scaled ← t.mul value base
          let value ← t.add scaled digit
          readFrom negative low high base digitOf text (index + 1) value
  else
    .ok (.ok value)
termination_by text.length - index

/-- A reader: an optional sign, and digits read toward it. -/
def readNumber (signed : Bool) (low high : t.Value) (radix : ℕ) (digitOf : UInt8 → Option ℕ)
    (text : List UInt8) : Except Stop (Except ParseNumberError t.Value) :=
  let size := text.length
  if size = 0 then
    .ok (.error .empty)
  else
    let negative := signed && text.head? = some 45
    let index := if negative ∨ text.head? = some 43 then 1 else 0
    if index = size then
      .ok (.error (.invalidDigit index))
    else do
      let base ← t.fromI64 radix
      readFrom t negative low high base digitOf text index t.zero

def parseRadix (text : List UInt8) (radix : ℕ) : Except Stop (Except ParseNumberError t.Value) :=
  if radix < 2 ∨ radix > 36 then
    .error (.panic "explicit-panic" "parse_radix: the radix must be 2 to 36")
  else
    readNumber t (t.lt (~~~t.zero) t.zero) t.intMin t.intMax radix
      (fun byte => if byteDigit byte ≥ radix then none else some (byteDigit byte)) text

end Reading

/-- The value of a decimal digit. -/
def decimalDigit (byte : UInt8) : Option ℕ :=
  if byte < 48 ∨ byte > 57 then none else some (byte - 48).toNat

def parseInteger (text : List UInt8) (low high : ℤ) :
    Except Stop (Except ParseNumberError IntType.i64.Value) :=
  readNumber .i64 true (IntType.i64.ofInt low) (IntType.i64.ofInt high) 10 decimalDigit text

/-- `parse_unsigned`: a reader with no sign for negative numbers, which never uses its least bound. -/
def parseUnsigned (text : List UInt8) (high : ℤ) :
    Except Stop (Except ParseNumberError IntType.u64.Value) :=
  readNumber .u64 false IntType.u64.zero (IntType.u64.ofInt high) 10 decimalDigit text

/-- The integer types of the language. -/
inductive Primitive
  | i8
  | i16
  | i32
  | i64
  | u8
  | u16
  | u32
  | u64
  | usize
  deriving DecidableEq, Repr

namespace Primitive

/-- The type's signedness and width. -/
def type : Primitive → IntType
  | .i8 => .i8
  | .i16 => .i16
  | .i32 => .i32
  | .i64 => .i64
  | .u8 => .u8
  | .u16 => .u16
  | .u32 => .u32
  | .u64 => .u64
  | .usize => .usize

/-- The cast of what a reader gives, from the type it reads at. -/
def cast {source : IntType} (t : IntType)
    (result : Except Stop (Except ParseNumberError source.Value)) :
    Except Stop (Except ParseNumberError t.Value) := do
  match ← result with
  | .ok value => return .ok (t.ofInt (source.toInt value))
  | .error e => return .error e

/-- `parse` of each type's `Parse`. -/
def parse : (p : Primitive) → List UInt8 → Except Stop (Except ParseNumberError p.type.Value)
  | .i8, text => cast .i8 (parseInteger text (-128) 127)
  | .i16, text => cast .i16 (parseInteger text (-32768) 32767)
  | .i32, text => cast .i32 (parseInteger text (-2147483648) 2147483647)
  | .i64, text => parseInteger text (-9223372036854775807 - 1) 9223372036854775807
  | .u8, text => cast .u8 (parseUnsigned text 255)
  | .u16, text => cast .u16 (parseUnsigned text 65535)
  | .u32, text => cast .u32 (parseUnsigned text 4294967295)
  | .u64, text => parseUnsigned text 18446744073709551615
  | .usize, text => cast .usize (parseUnsigned text 4294967295)

end Primitive

end HdLang.Num
