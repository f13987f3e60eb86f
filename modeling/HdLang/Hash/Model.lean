import HdLang.Num.Halves

/-!
# The hashers of `std.hash`

`DefaultHasher` is FNV-1a in a `u64`. `BucketHasher` keys the built-in maps: the four 32-bit lanes
of HalfSipHash-1-3 live in `u64`s, masked after each step. A string key takes its own path,
`string_bucket_hash`, with the round written out, and an integer key a cheaper mix. A string is its
bytes, and the run's seed a parameter.
-/

namespace HdLang.Hash

open HdLang.Num

/-- A `u8`. -/
abbrev Byte : Type := BitVec 8

/-- `u64(byte)` -/
def ofByte (byte : Byte) : U64 := byte.setWidth 64

/-- `u8(n)` -/
def toByte (n : U64) : Byte := n.setWidth 8

/-- `u32(n)` -/
def toU32 (n : U64) : BitVec 32 := n.setWidth 32

/-- `a + b` in `usize` -/
def addUsize (a b : ℕ) : Except Stop ℕ := if a + b < USIZE then .ok (a + b) else .error overflow

/-- `bytes_at(text, index)` -/
def bytesAt (text : List Byte) (index : ℕ) : Except Stop Byte :=
  match text[index]? with
  | some byte => .ok byte
  | none => .error .outOfBounds

/-! ### The calls of `Hasher` -/

/-- The methods of `Hasher` that write an integer. -/
inductive IntegerMethod
  | writeU8 | writeU16 | writeU32 | writeU64 | writeUsize | writeI8 | writeI16 | writeI32 | writeI64
  deriving DecidableEq, Repr

/-- The type of the integer. -/
def IntegerMethod.type : IntegerMethod → IntType
  | .writeU8 => .u8
  | .writeU16 => .u16
  | .writeU32 => .u32
  | .writeU64 => .u64
  | .writeUsize => .usize
  | .writeI8 => .i8
  | .writeI16 => .i16
  | .writeI32 => .i32
  | .writeI64 => .i64

/-- The bytes that the method writes. -/
def IntegerMethod.width : IntegerMethod → ℕ
  | .writeU8 | .writeI8 => 1
  | .writeU16 | .writeI16 => 2
  | .writeU32 | .writeI32 | .writeUsize => 4
  | .writeU64 | .writeI64 => 8

/-- A call on a hasher. -/
inductive Write
  | write (bytes : List Byte)
  | integer (method : IntegerMethod) (value : method.type.Value)
  | writeStr (text : List Byte)

/-- `u64(value)`, of a signed value's pattern -/
def bits {t : IntType} (value : t.Value) : U64 := value.setWidth 64

/-! ### `DefaultHasher` -/

def fnvMix (state : U64) (byte : Byte) : Except Stop U64 := do
  let mask : U64 := 4294967295
  let mixed := state ^^^ ofByte byte
  let low := mixed &&& mask
  let lowProduct ← mulU64 low 435
  let first ← mulU64 low 256
  let second ← mulU64 (← shrU64 mixed 32) 435
  let middle := (← addU64 (← addU64 first second) (← shrU64 lowProduct 32)) &&& mask
  return (← shlU64 middle 32) ||| (lowProduct &&& mask)

namespace DefaultHasher

def new : U64 := 14695981039346656037

/-- `write_integer`: the state after `width` more bytes of `rest`. -/
def writeInteger (state rest : U64) : ℕ → Except Stop U64
  | 0 => return state
  | width + 1 => do
    let state ← fnvMix state (toByte (rest &&& 255))
    writeInteger state (← shrU64 rest 8) width

def write (state : U64) : List Byte → Except Stop U64
  | [] => return state
  | byte :: bytes => do write (← fnvMix state byte) bytes

/-- `write_str`, from an index on, with so many bytes to go -/
def writeStrFrom (text : List Byte) (state : U64) (index : ℕ) : ℕ → Except Stop U64
  | 0 => return state
  | left + 1 => do
    let state ← fnvMix state (← bytesAt text index)
    writeStrFrom text state (index + 1) left

/-- The state after a call. -/
def call (state : U64) : Write → Except Stop U64
  | .write bytes => write state bytes
  | .integer method value => writeInteger state (bits value) method.width
  | .writeStr text => writeStrFrom text state 0 text.length

/-- The state after a sequence of calls. -/
def calls (state : U64) : List Write → Except Stop U64
  | [] => return state
  | c :: cs => do calls (← call state c) cs

def finish (state : U64) : U64 := state

end DefaultHasher

/-! ### `BucketHasher` -/

def sipRound (a b c d : U64) : Except Stop (U64 × U64 × U64 × U64) := do
  let mask : U64 := 4294967295
  let v0 := (← addU64 a b) &&& mask
  let v1 := ((← shlU64 b 5) ||| (← shrU64 b 27)) &&& mask
  let v1 := v1 ^^^ v0
  let v0 := ((← shlU64 v0 16) ||| (← shrU64 v0 16)) &&& mask
  let v2 := (← addU64 c d) &&& mask
  let v3 := ((← shlU64 d 8) ||| (← shrU64 d 24)) &&& mask
  let v3 := v3 ^^^ v2
  let v0 := (← addU64 v0 v3) &&& mask
  let v3 := ((← shlU64 v3 7) ||| (← shrU64 v3 25)) &&& mask
  let v3 := v3 ^^^ v0
  let v2 := (← addU64 v2 v1) &&& mask
  let v1 := ((← shlU64 v1 13) ||| (← shrU64 v1 19)) &&& mask
  let v1 := v1 ^^^ v2
  let v2 := ((← shlU64 v2 16) ||| (← shrU64 v2 16)) &&& mask
  return (v0, v1, v2, v3)

structure BucketHasher where
  v0 : U64
  v1 : U64
  v2 : U64
  v3 : U64
  word : U64
  count : ℕ
  deriving DecidableEq, Repr

namespace BucketHasher

/-- `BucketHasher::new`, with the run's seed -/
def new (seed : U64) : Except Stop BucketHasher := do
  let v0 := seed &&& 4294967295
  let v1 ← shrU64 seed 32
  return ⟨v0, v1, v0 ^^^ 1819895653, v1 ^^^ 1952801890, 0, 0⟩

def absorb (h : BucketHasher) (m : U64) : Except Stop BucketHasher := do
  let lanes ← sipRound h.v0 h.v1 h.v2 (h.v3 ^^^ m)
  return ⟨lanes.1 ^^^ m, lanes.2.1, lanes.2.2.1, lanes.2.2.2, 0, h.count⟩

/-- The body of the writing loops: a byte goes into the word, and a full word into the lanes. -/
def put (h : BucketHasher) (byte : U64) : Except Stop BucketHasher := do
  let word := h.word ||| (← shlU64 byte ((h.count &&& 3) * 8))
  let count ← addUsize h.count 1
  if count &&& 3 = 0 then absorb { h with count } word
  else return { h with word, count }

/-- `write_integer`, with so many bytes to go -/
def writeInteger (h : BucketHasher) (rest : U64) : ℕ → Except Stop BucketHasher
  | 0 => return h
  | width + 1 => do
    let h ← h.put (rest &&& 255)
    writeInteger h (← shrU64 rest 8) width

def write (h : BucketHasher) : List Byte → Except Stop BucketHasher
  | [] => return h
  | byte :: bytes => do write (← h.put (ofByte byte)) bytes

/-- `write_str`, from an index on, with so many bytes to go -/
def writeStrFrom (text : List Byte) (h : BucketHasher) (index : ℕ) : ℕ → Except Stop BucketHasher
  | 0 => return h
  | left + 1 => do
    let h ← h.put (ofByte (← bytesAt text index))
    writeStrFrom text h (index + 1) left

/-- The hasher after a call. -/
def call (h : BucketHasher) : Write → Except Stop BucketHasher
  | .write bytes => h.write bytes
  | .integer method value => h.writeInteger (bits value) method.width
  | .writeStr text => writeStrFrom text h 0 text.length

/-- The hasher after a sequence of calls. -/
def calls (h : BucketHasher) : List Write → Except Stop BucketHasher
  | [] => return h
  | c :: cs => do calls (← h.call c) cs

def finish (h : BucketHasher) : Except Stop (BitVec 32) := do
  let last ← h.absorb (h.word ||| (← shlU64 (BitVec.ofNat 64 (h.count &&& 255)) 24))
  let lanes ← sipRound last.v0 last.v1 (last.v2 ^^^ 255) last.v3
  let lanes ← sipRound lanes.1 lanes.2.1 lanes.2.2.1 lanes.2.2.2
  let lanes ← sipRound lanes.1 lanes.2.1 lanes.2.2.1 lanes.2.2.2
  return toU32 (lanes.2.1 ^^^ lanes.2.2.2)

end BucketHasher

/-! ### The paths of single keys -/

/-- `int_bucket_hash`, with the run's seed -/
def intBucketHash (seed value : U64) : Except Stop (BitVec 32) := do
  let mask : U64 := 4294967295
  let k1 := seed &&& mask
  let k2 ← shrU64 seed 32
  let c ← mulU64 k1 (k2 ^^^ 8)
  let a := (c &&& mask) ^^^ (value &&& mask)
  let b := (← shrU64 c 32) ^^^ (← shrU64 value 32)
  let c ← mulU64 (a ^^^ k1) (b ^^^ k2)
  let a := c &&& mask
  let b ← shrU64 c 32
  let c ← mulU64 (a ^^^ k1) (b ^^^ k2)
  return toU32 ((c &&& mask) ^^^ (← shrU64 c 32))

/-- The round as `string_bucket_hash` writes it out, in its loop and after it. -/
def stringRound (v0 v1 v2 v3 : U64) : Except Stop (U64 × U64 × U64 × U64) := do
  let mask : U64 := 4294967295
  let v0 := (← addU64 v0 v1) &&& mask
  let v1 := ((← shlU64 v1 5) ||| (← shrU64 v1 27)) &&& mask
  let v1 := v1 ^^^ v0
  let v0 := ((← shlU64 v0 16) ||| (← shrU64 v0 16)) &&& mask
  let v2 := (← addU64 v2 v3) &&& mask
  let v3 := ((← shlU64 v3 8) ||| (← shrU64 v3 24)) &&& mask
  let v3 := v3 ^^^ v2
  let v0 := (← addU64 v0 v3) &&& mask
  let v3 := ((← shlU64 v3 7) ||| (← shrU64 v3 25)) &&& mask
  let v3 := v3 ^^^ v0
  let v2 := (← addU64 v2 v1) &&& mask
  let v1 := ((← shlU64 v1 13) ||| (← shrU64 v1 19)) &&& mask
  let v1 := v1 ^^^ v2
  let v2 := ((← shlU64 v2 16) ||| (← shrU64 v2 16)) &&& mask
  return (v0, v1, v2, v3)

/-- `load_u32` at a byte of the text, little-endian -/
def loadU32 (text : List Byte) (index : ℕ) : Except Stop (BitVec 32) := do
  let b0 ← bytesAt text index
  let b1 ← bytesAt text (index + 1)
  let b2 ← bytesAt text (index + 2)
  let b3 ← bytesAt text (index + 3)
  return b3 ++ b2 ++ b1 ++ b0

/-- The last word of `string_bucket_hash`: the bytes from `i` on, under the length. -/
def lastWord (key : List Byte) (i : ℕ) : Except Stop U64 := do
  let n := key.length
  let m ← shlU64 (BitVec.ofNat 64 (n &&& 255)) 24
  let rest := n - i
  if 0 < rest then
    let m := m ||| ofByte (← bytesAt key i)
    if 1 < rest then
      let m := m ||| (← shlU64 (ofByte (← bytesAt key (i + 1))) 8)
      if 2 < rest then return m ||| (← shlU64 (ofByte (← bytesAt key (i + 2))) 16)
      else return m
    else return m
  else return m

/-- The loop of `string_bucket_hash` from byte `i` on: the lanes after the last word. -/
def stringFrom (key : List Byte) : ℕ → ℕ → U64 × U64 × U64 × U64 → Except Stop
  (U64 × U64 × U64 × U64)
  | 0, _, _ => .error .diverges
  | fuel + 1, i, (v0, v1, v2, v3) => do
    let n := key.length
    if (← addUsize i 4) ≤ n then
      let m := (← loadU32 key i).setWidth 64
      let (v0, v1, v2, v3) ← stringRound v0 v1 v2 (v3 ^^^ m)
      stringFrom key fuel (i + 4) (v0 ^^^ m, v1, v2, v3)
    else
      let m ← lastWord key i
      let (v0, v1, v2, v3) ← stringRound v0 v1 v2 (v3 ^^^ m)
      return (v0 ^^^ m, v1, v2, v3)

/-- `string_bucket_hash`, with the run's seed -/
def stringBucketHash (seed : U64) (key : List Byte) : Except Stop (BitVec 32) := do
  let v0 := seed &&& 4294967295
  let v1 ← shrU64 seed 32
  let v2 := v0 ^^^ 1819895653
  let v3 := v1 ^^^ 1952801890
  let (v0, v1, v2, v3) ← stringFrom key (key.length + 1) 0 (v0, v1, v2, v3)
  let (v0, v1, v2, v3) ← stringRound v0 v1 (v2 ^^^ 255) v3
  let (v0, v1, v2, v3) ← stringRound v0 v1 v2 v3
  let (_, v1, _, v3) ← stringRound v0 v1 v2 v3
  return toU32 (v1 ^^^ v3)

end HdLang.Hash
