import HdLang.Arith
import Mathlib.Data.Int.Notation

/-!
# `std.encoding`

Bytes as hex and Base64 text. A text is the list of its bytes, and an index out of bounds is a panic.
A size that is computed is a `usize`: one that does not fit panics in a debug or test build and wraps
in a release build. The indices below it are numbers, since every one of them is below the size of the
list that it reads or writes, or panics there. An `i32` of the code is a number where it is not
negative: a group holds 24 bits, and `buffer` at most 14.
-/

namespace HdLang.Encoding

/-- The panics of the functions below. -/
inductive Panic
  | integerOverflow
  | indexOutOfBounds
  deriving DecidableEq, Repr

inductive DecodeError
  | invalidCharacter (position : ℕ)
  | invalidLength (position : ℕ)
  | invalidPadding (position : ℕ)
  deriving DecidableEq, Repr

/-- The byte offset of an error. -/
def DecodeError.position : DecodeError → ℕ
  | .invalidCharacter position => position
  | .invalidLength position => position
  | .invalidPadding position => position

/-- The `usize` of a sum or a product. -/
def usize (build : Build) (n : ℕ) : Except Panic ℕ :=
  if n < USIZE then .ok n
  else if build = .release then .ok (n % USIZE)
  else .error .integerOverflow

/-- `list[index]`, and `bytes_at(text, index)`. -/
def read (list : List UInt8) (index : ℕ) : Except Panic UInt8 :=
  match list[index]? with
  | some byte => .ok byte
  | none => .error .indexOutOfBounds

/-- `list[index] = byte`. -/
def write (list : List UInt8) (index : ℕ) (byte : UInt8) : Except Panic (List UInt8) :=
  if index < list.length then .ok (list.set index byte) else .error .indexOutOfBounds

def zeroes (count : ℕ) : List UInt8 := List.replicate count 0

/-! ### Hex -/

def hexSymbol (value : UInt8) : UInt8 := if value < 10 then 48 + value else 87 + value

def hexValue (code : ℤ) : ℤ :=
  if code ≥ 48 ∧ code ≤ 57 then code - 48
  else if code ≥ 97 ∧ code ≤ 102 then code - 87
  else if code ≥ 65 ∧ code ≤ 70 then code - 55
  else -1

/-- The loop of `hex_encode`, from `index` on. -/
def hexEncodeFrom (bytes : List UInt8) (index : ℕ) (codes : List UInt8) :
    Except Panic (List UInt8) :=
  if _h : index < bytes.length then do
    let byte ← read bytes index
    let codes ← write codes (index * 2) (hexSymbol (byte >>> 4))
    let codes ← write codes (index * 2 + 1) (hexSymbol (byte &&& 15))
    hexEncodeFrom bytes (index + 1) codes
  else
    .ok codes
termination_by bytes.length - index

def hexEncode (build : Build) (bytes : List UInt8) : Except Panic (List UInt8) := do
  let size ← usize build (bytes.length * 2)
  hexEncodeFrom bytes 0 (zeroes size)

/-- The loop of `hex_decode`, from `index` on. -/
def hexDecodeFrom (text : List UInt8) (index : ℕ) (bytes : List UInt8) :
    Except Panic (Except DecodeError (List UInt8)) :=
  if _h : index < text.length then do
    let high := hexValue (← read text index).toNat
    if high < 0 then
      .ok (.error (.invalidCharacter index))
    else
      let low := hexValue (← read text (index + 1)).toNat
      if low < 0 then
        .ok (.error (.invalidCharacter (index + 1)))
      else
        let bytes ← write bytes (index / 2) (UInt8.ofInt (high * 16 + low))
        hexDecodeFrom text (index + 2) bytes
  else
    .ok (.ok bytes)
termination_by text.length - index

def hexDecode (text : List UInt8) : Except Panic (Except DecodeError (List UInt8)) :=
  let size := text.length
  if size % 2 ≠ 0 then .ok (.error (.invalidLength size))
  else hexDecodeFrom text 0 (zeroes (size / 2))

/-! ### Base64 -/

inductive Base64
  | standard
  | standardNoPad
  | url
  | urlNoPad
  deriving DecidableEq, Repr

namespace Base64

variable (self : Base64)

def padded : Bool :=
  match self with
  | .standard => true
  | .standardNoPad => false
  | .url => true
  | .urlNoPad => false

def isUrl : Bool :=
  match self with
  | .standard => false
  | .standardNoPad => false
  | .url => true
  | .urlNoPad => true

def symbol (value : ℕ) : UInt8 :=
  if value < 26 then UInt8.ofNat (65 + value)
  else if value < 52 then UInt8.ofNat (71 + value)
  else if value < 62 then UInt8.ofNat (value - 4)
  else if value = 62 then (if self.isUrl then 45 else 43)
  else (if self.isUrl then 95 else 47)

def value (code : UInt8) : ℤ :=
  if code ≥ 65 ∧ code ≤ 90 then (code.toNat : ℤ) - 65
  else if code ≥ 97 ∧ code ≤ 122 then (code.toNat : ℤ) - 71
  else if code ≥ 48 ∧ code ≤ 57 then (code.toNat : ℤ) + 4
  else if code = (if self.isUrl then 45 else 43) then 62
  else if code = (if self.isUrl then 95 else 47) then 63
  else -1

/-- The loop of `encode` over the whole groups from `index` on. -/
def encodeGroups (bytes : List UInt8) (index place : ℕ) (codes : List UInt8) :
    Except Panic (ℕ × ℕ × List UInt8) :=
  if _h : index + 3 ≤ bytes.length then do
    let b₀ ← read bytes index
    let b₁ ← read bytes (index + 1)
    let b₂ ← read bytes (index + 2)
    let group := b₀.toNat <<< 16 ||| b₁.toNat <<< 8 ||| b₂.toNat
    let codes ← write codes place (self.symbol (group >>> 18))
    let codes ← write codes (place + 1) (self.symbol (group >>> 12 &&& 63))
    let codes ← write codes (place + 2) (self.symbol (group >>> 6 &&& 63))
    let codes ← write codes (place + 3) (self.symbol (group &&& 63))
    encodeGroups bytes (index + 3) (place + 4) codes
  else
    .ok (index, place, codes)
termination_by bytes.length - index

def encode (build : Build) (bytes : List UInt8) : Except Panic (List UInt8) := do
  let size := bytes.length
  let whole := size / 3
  let rest := size - whole * 3
  let length ← usize build (whole * 4)
  let length ← if rest ≠ 0 then usize build (length + if self.padded then 4 else rest + 1)
    else .ok length
  let (index, place, codes) ← self.encodeGroups bytes 0 0 (zeroes length)
  if rest = 1 then do
    let b₀ ← read bytes index
    let group := b₀.toNat <<< 16
    let codes ← write codes place (self.symbol (group >>> 18))
    let codes ← write codes (place + 1) (self.symbol (group >>> 12 &&& 63))
    if self.padded then do
      let codes ← write codes (place + 2) 61
      write codes (place + 3) 61
    else
      .ok codes
  else if rest = 2 then do
    let b₀ ← read bytes index
    let b₁ ← read bytes (index + 1)
    let group := b₀.toNat <<< 16 ||| b₁.toNat <<< 8
    let codes ← write codes place (self.symbol (group >>> 18))
    let codes ← write codes (place + 1) (self.symbol (group >>> 12 &&& 63))
    let codes ← write codes (place + 2) (self.symbol (group >>> 6 &&& 63))
    if self.padded then
      write codes (place + 3) 61
    else
      .ok codes
  else
    .ok codes

/-- What the loop of `decode` carries: the bits read and not yet written, how many they are, and the
bytes written so far, `place` of them. -/
structure DecodeState where
  buffer : ℕ
  bits : ℕ
  place : ℕ
  bytes : List UInt8

/-- The loop of `decode`, from `index` up to `stop`. -/
def decodeFrom (text : List UInt8) (stop index : ℕ) (s : DecodeState) :
    Except Panic (Except DecodeError DecodeState) :=
  if _h : index < stop then do
    let code ← read text index
    if code = 61 then
      .ok (.error (.invalidPadding index))
    else
      let value := self.value code
      if value < 0 then
        .ok (.error (.invalidCharacter index))
      else
        let buffer := s.buffer <<< 6 ||| value.toNat
        let bits := s.bits + 6
        if bits ≥ 8 then do
          let bits := bits - 8
          let bytes ← write s.bytes s.place (UInt8.ofNat (buffer >>> bits))
          decodeFrom text stop (index + 1)
            ⟨buffer &&& (1 <<< bits - 1), bits, s.place + 1, bytes⟩
        else
          decodeFrom text stop (index + 1) ⟨buffer, bits, s.place, s.bytes⟩
  else
    .ok (.ok s)
termination_by stop - index

/-- The end of the symbols of `text`: where its padding starts. -/
def symbolsEnd (text : List UInt8) : Except Panic (Except DecodeError ℕ) :=
  let size := text.length
  if self.padded then
    if size % 4 ≠ 0 then
      .ok (.error (.invalidLength size))
    else if size > 0 then do
      if (← read text (size - 1)) = 61 then
        if (← read text (size - 2)) = 61 then .ok (.ok (size - 2)) else .ok (.ok (size - 1))
      else
        .ok (.ok size)
    else
      .ok (.ok size)
  else if size % 4 = 1 then
    .ok (.error (.invalidLength size))
  else
    .ok (.ok size)

def decode (build : Build) (text : List UInt8) :
    Except Panic (Except DecodeError (List UInt8)) := do
  match ← self.symbolsEnd text with
  | .error e => .ok (.error e)
  | .ok stop =>
    let bitCount ← usize build (stop * 6)
    match ← self.decodeFrom text stop 0 ⟨0, 0, 0, zeroes (bitCount / 8)⟩ with
    | .error e => .ok (.error e)
    | .ok s =>
      if s.buffer ≠ 0 then .ok (.error (.invalidPadding (stop - 1)))
      else .ok (.ok s.bytes)

end Base64

end HdLang.Encoding
