import HdLang.Lib.Utf8
import HdLang.Num.Exact
import HdLang.Search.Model

/-!
# UTF-8 in `std.text`

The decoder of `string::from_utf8`, the cursors `Chars` and `CharIndices`, which trust that the
string is well-formed, and the two encoders: `StringBuilder.push_char`, and `write_char_sized` of
`std.rt.bytes`, which writes in a room that `char_width` measured.
-/

namespace HdLang.Scalars

open Num.IntType Search

inductive Utf8Error
  | invalidSequence (position : ℕ)
  | truncated (position : ℕ)
  deriving DecidableEq

def continuationByte (byte : UInt8) : Bool := decide (byte ≥ 128) && decide (byte < 192)

def scalarValue (point : ℤ) : Bool :=
  decide (point ≥ 0) && decide (point ≤ 1114111) &&
    (decide (point < 55296) || decide (point > 57343))

/-- `i32(byte)` -/
def i32Of (byte : UInt8) : ℤ := (byte.toNat : ℤ)

/-- `point * 64 + i32(byte) - 128` -/
def extend (point : ℤ) (byte : UInt8) : Except Stop ℤ := do
  let shifted ← i32.checked (point * 64)
  let added ← i32.checked (shifted + i32Of byte)
  i32.checked (added - 128)

/-! ### Decoding -/

/-- What the sequence at an index is: a scalar of a width, or why it is none. -/
inductive Sequence
  | scalar (width : ℕ)
  | truncated
  | invalid
  deriving DecidableEq

/-- The inner loop of `from_utf8` and of `utf8_valid_len`, from `nth` on, and the check after it. -/
def continuations (bytes : Bytes) (index width : ℕ) (lowest : ℤ) (nth : ℕ) (point : ℤ) :
    Except Stop Sequence :=
  if _h : nth < width then
    if index + nth ≥ bytes.length then .ok .truncated
    else do
      let byte ← bytesAt bytes (index + nth)
      if continuationByte byte then do
        let point ← extend point byte
        continuations bytes index width lowest (nth + 1) point
      else return .invalid
  else if point < lowest ∨ ¬ scalarValue point then .ok .invalid
  else .ok (.scalar width)
termination_by width - nth

/-- The body of the loop of `from_utf8` and of `utf8_valid_len`, whose error the latter leaves open.
-/
def sequenceAt (bytes : Bytes) (index : ℕ) : Except Stop Sequence := do
  let lead := i32Of (← bytesAt bytes index)
  if lead < 128 then return .scalar 1
  else if lead ≥ 240 ∧ lead ≤ 244 then do
    continuations bytes index 4 65536 1 (← i32.checked (lead - 240))
  else if lead ≥ 224 ∧ lead < 240 then do
    continuations bytes index 3 2048 1 (← i32.checked (lead - 224))
  else if lead ≥ 194 ∧ lead < 224 then do
    continuations bytes index 2 128 1 (← i32.checked (lead - 192))
  else return .invalid

/-- One turn of the loop of `utf8_valid_len`. -/
def utf8ValidLenTurn (bytes : Bytes) (index : ℕ) : Except Stop (ℕ ⊕ ℕ) :=
  if index < bytes.length then do
    match ← sequenceAt bytes index with
    | .scalar width => return .inl (index + width)
    | .truncated => return .inr index
    | .invalid => return .inr index
  else .ok (.inr bytes.length)

def utf8ValidLen (bytes : Bytes) : Except Stop ℕ :=
  turning .diverges (utf8ValidLenTurn bytes) (bytes.length + 1) 0

/-- One turn of the loop of `from_utf8`. -/
def fromUtf8Turn (bytes : Bytes) (index : ℕ) : Except Stop (ℕ ⊕ Except Utf8Error Bytes) :=
  if index < bytes.length then do
    match ← sequenceAt bytes index with
    | .scalar width => return .inl (index + width)
    | .truncated => return .inr (.error (.truncated index))
    | .invalid => return .inr (.error (.invalidSequence index))
  else .ok (.inr (.ok bytes))

def fromUtf8 (bytes : Bytes) : Except Stop (Except Utf8Error Bytes) := do
  let index ← utf8ValidLen bytes
  turning .diverges (fromUtf8Turn bytes) (bytes.length + 1) index

/-! ### Cursors -/

/-- The loop of `scalar_end`, from `stop` on. -/
def scalarEndFrom (text : Bytes) (stop : ℕ) : Except Stop ℕ :=
  if _h : stop < text.length then do
    if continuationByte (← bytesAt text stop) then scalarEndFrom text (stop + 1)
    else return stop
  else .ok stop
termination_by text.length - stop

def scalarEnd (text : Bytes) (start : ℕ) : Except Stop ℕ := scalarEndFrom text (start + 1)

/-- The loop of `scalar_at`, from `index` on. -/
def scalarAtFrom (text : Bytes) (start width index : ℕ) (point : ℤ) : Except Stop ℤ :=
  if _h : index < width then do
    let byte ← bytesAt text (start + index)
    let point ← extend point byte
    scalarAtFrom text start width (index + 1) point
  else .ok point
termination_by width - index

def scalarAt (text : Bytes) (start : ℕ) : Except Stop ℤ := do
  let lead := i32Of (← bytesAt text start)
  if lead < 128 then return lead
  else if lead < 224 then do scalarAtFrom text start 2 1 (← i32.checked (lead - 192))
  else if lead < 240 then do scalarAtFrom text start 3 1 (← i32.checked (lead - 224))
  else do scalarAtFrom text start 4 1 (← i32.checked (lead - 240))

/-- `u32(point)`: the cast wraps. -/
def u32Of (point : ℤ) : ℕ := (point % 4294967296).toNat

def charFromScalar (point : ℕ) : Option Char :=
  if point.isValidChar then some (Char.ofNat point) else none

/-- `Chars`, and `CharIndices`. -/
structure Chars where
  text : Bytes
  offset : ℕ

/-- `Chars.next`: what it gives, and the cursor after it. -/
def Chars.next (self : Chars) : Except Stop (Option Char × Chars) :=
  if self.offset ≥ self.text.length then .ok (none, self)
  else do
    let point ← scalarAt self.text self.offset
    let offset ← scalarEnd self.text self.offset
    return (charFromScalar (u32Of point), { self with offset })

/-- `CharIndices.next` -/
def Chars.nextIndexed (self : Chars) : Except Stop (Option (ℕ × Char) × Chars) :=
  if self.offset ≥ self.text.length then .ok (none, self)
  else do
    let start := self.offset
    let offset ← scalarEnd self.text start
    match charFromScalar (u32Of (← scalarAt self.text start)) with
    | some scalar => return (some (start, scalar), { self with offset })
    | none => return (none, { self with offset })

/-- `for item in cursor`: the items until the cursor gives none. -/
def collect {σ α : Type} (next : σ → Except Stop (Option α × σ)) : (turns : ℕ) → σ → Except Stop
  (List α)
  | 0, _ => .error .diverges
  | turns + 1, s => do
    match ← next s with
    | (some item, s') => return item :: (← collect next turns s')
    | (none, _) => return []

/-- The items of `text.chars()`. -/
def chars (text : Bytes) : Except Stop (List Char) := collect Chars.next (text.length + 1) ⟨text, 0⟩

/-- The items of `text.char_indices()`. -/
def charIndices (text : Bytes) : Except Stop (List (ℕ × Char)) :=
  collect Chars.nextIndexed (text.length + 1) ⟨text, 0⟩

/-! ### Encoding -/

/-- `u8(number)`: the cast wraps. -/
def u8Of (number : ℕ) : UInt8 := UInt8.ofNat number

/-- `StringBuilder.push_char`, of the bytes pushed so far. -/
def pushChar (bytes : Bytes) (c : Char) : Bytes :=
  let point := c.toNat
  if point < 128 then bytes ++ [u8Of point]
  else if point < 2048 then bytes ++ [u8Of (192 + point / 64)] ++ [u8Of (128 + point % 64)]
  else if point < 65536 then
    bytes ++ [u8Of (224 + point / 4096)] ++ [u8Of (128 + point / 64 % 64)] ++
      [u8Of (128 + point % 64)]
  else
    bytes ++ [u8Of (240 + point / 262144)] ++ [u8Of (128 + point / 4096 % 64)] ++
      [u8Of (128 + point / 64 % 64)] ++ [u8Of (128 + point % 64)]

def charWidth (value : Char) : ℕ :=
  let scalar := value.toNat
  if scalar < 128 then 1 else if scalar < 2048 then 2 else if scalar < 65536 then 3 else 4

def storeU8 (memory : Bytes) (address : ℕ) (byte : UInt8) : Except Stop Bytes :=
  if address < memory.length then .ok (memory.set address byte) else .error .outOfBounds

/-- `write_char_sized`, at the address of the destination. -/
def writeCharSized (memory : Bytes) (value : Char) (address : ℕ) : Except Stop Bytes :=
  let scalar := value.toNat
  if scalar < 128 then storeU8 memory address (u8Of scalar)
  else if scalar < 2048 then do
    let memory ← storeU8 memory address (u8Of (192 + scalar / 64))
    storeU8 memory (address + 1) (u8Of (128 + scalar % 64))
  else if scalar < 65536 then do
    let memory ← storeU8 memory address (u8Of (224 + scalar / 4096))
    let memory ← storeU8 memory (address + 1) (u8Of (128 + scalar / 64 % 64))
    storeU8 memory (address + 2) (u8Of (128 + scalar % 64))
  else do
    let memory ← storeU8 memory address (u8Of (240 + scalar / 262144))
    let memory ← storeU8 memory (address + 1) (u8Of (128 + scalar / 4096 % 64))
    let memory ← storeU8 memory (address + 2) (u8Of (128 + scalar / 64 % 64))
    storeU8 memory (address + 3) (u8Of (128 + scalar % 64))

/-- The characters written one after another, each in the `char_width` bytes after the last. -/
def writeChars (memory : Bytes) (address : ℕ) : List Char → Except Stop Bytes
  | [] => .ok memory
  | c :: text => do
    let memory ← writeCharSized memory c address
    writeChars memory (address + charWidth c) text

end HdLang.Scalars
