import HdLang.StdJson.Parser

/-!
# Writing values, and reading numbers

`render` writes the text of a value, on one line or with two spaces of indentation for each level,
and `number` reads a number. What the standard library does with floats is a parameter.
-/

namespace HdLang.StdJson

/-- What the standard library does with finite floats. -/
structure Floats (F : Type) where
  /-- `exact_float`. -/
  exactFloat (significand : ℕ) (scale : ℤ) : F
  neg : F → F
  minusZero : F
  /-- `string::parse` of the text of a number, none past the range. -/
  parse : Text → Option F
  /-- `"$value"`. -/
  text : F → Text

variable {F : Type} (floats : Floats F)

/-! ### Numbers -/

def isDigit (byte : UInt8) : Bool := byte ≥ 48 && byte ≤ 57

def u64Max : ℕ := 18446744073709551615

def signLimit : ℕ := 9223372036854775808

def exactLimit : ℕ := 9007199254740992

/-- The digits at the front of `rest`, which stands at `index`: the end of them, the integer that
they continue, and whether it is past `u64`. -/
def wholeDigits : (rest : Text) → (index magnitude : ℕ) → (overflow : Bool) → ℕ × ℕ × Bool
  | [], index, magnitude, overflow => (index, magnitude, overflow)
  | byte :: rest, index, magnitude, overflow =>
    if isDigit byte then
      let digit := byte.toNat - 48
      if magnitude > (u64Max - digit) / 10 then wholeDigits rest (index + 1) magnitude true
      else wholeDigits rest (index + 1) (magnitude * 10 + digit) overflow
    else (index, magnitude, overflow)

/-- What `number` knows of the digits so far. -/
structure Scan where
  index : ℕ
  significand : ℕ
  exact : Bool
  scale : ℤ
  /-- A fraction or an exponent was read. -/
  exotic : Bool

/-- The digits of a fraction. -/
def fractionDigits : (rest : Text) → Scan → Scan
  | [], scan => scan
  | byte :: rest, scan =>
    if isDigit byte then
      let scan := { scan with index := scan.index + 1 }
      if scan.exact then
        let significand := scan.significand * 10 + (byte.toNat - 48)
        fractionDigits rest
          { scan with significand, scale := scan.scale - 1, exact := significand ≤ exactLimit }
      else fractionDigits rest scan
    else scan

/-- The digits of an exponent: the end of them, and its value. -/
def powerDigits : (rest : Text) → (index : ℕ) → (power : ℤ) → ℕ × ℤ
  | [], index, power => (index, power)
  | byte :: rest, index, power =>
    if isDigit byte then
      powerDigits rest (index + 1) (if power < 1000 then power * 10 + (byte.toNat - 48) else power)
    else (index, power)

section Number

variable (text : Text)

/-- Fails unless a digit stands at `index`. -/
def needDigit (index : ℕ) : Except JsonError Unit :=
  if text[index]?.any isDigit then .ok () else .error (unexpected text index)

def fraction (scan : Scan) : Except JsonError Scan :=
  if text[scan.index]? = some 46 then do
    let index := scan.index + 1
    needDigit text index
    return { fractionDigits (text.drop index) { scan with index } with exotic := true }
  else .ok scan

def exponent (scan : Scan) : Except JsonError Scan :=
  if text[scan.index]? = some 101 ∨ text[scan.index]? = some 69 then do
    let index := scan.index + 1
    let below := decide (text[index]? = some 45)
    let index := if below ∨ text[index]? = some 43 then index + 1 else index
    needDigit text index
    let (index, power) := powerDigits (text.drop index) index 0
    return { scan with index, scale := if below then scan.scale - power else scan.scale + power,
                       exotic := true }
  else .ok scan

def floatNumber (start stop : ℕ) : Except JsonError (Number F) :=
  match floats.parse (bytesSlice text start stop) with
  | some found => .ok (.float found)
  | none => .error (.numberOutOfRange start)

/-- The digits before any fraction: the end of them, their value, and whether it is past `u64`. -/
def whole (index : ℕ) : Except JsonError (ℕ × ℕ × Bool) :=
  match text[index]? with
  | none => .error (unexpected text index)
  | some first =>
    if first = 48 then .ok (index + 1, 0, false)
    else if isDigit first then .ok (wholeDigits (text.drop index) index 0 false)
    else .error (unexpected text index)

/-- `Parser.number`: the number that starts at `start`, and its end. -/
def number (start : ℕ) : Except JsonError (Number F × ℕ) := do
  let negative := decide (text[start]? = some 45)
  let (index, magnitude, overflow) ← whole text (if negative then start + 1 else start)
  let scan ← fraction text
    ⟨index, magnitude, !overflow && decide (magnitude ≤ exactLimit), 0, false⟩
  let scan ← exponent text scan
  if scan.exotic ∧ scan.exact ∧ scan.scale ≥ -22 ∧ scan.scale ≤ 22 then
    let value := floats.exactFloat scan.significand scan.scale
    return (.float (if negative then floats.neg value else value), scan.index)
  else if scan.exotic ∨ overflow ∨ (negative ∧ magnitude > signLimit) then
    return (← floatNumber floats text start scan.index, scan.index)
  else if !negative then return (.nonNegative magnitude, scan.index)
  else if magnitude = 0 then return (.float floats.minusZero, scan.index)
  else return (.fromI64 (-magnitude), scan.index)

end Number

/-! ### Text -/

def hexSymbol (value : UInt8) : UInt8 := if value < 10 then 48 + value else 87 + value

def escapeText (byte : UInt8) : Text :=
  if byte = 34 then [92, 34]
  else if byte = 92 then [92, 92]
  else if byte = 8 then [92, 98]
  else if byte = 12 then [92, 102]
  else if byte = 10 then [92, 110]
  else if byte = 13 then [92, 114]
  else if byte = 9 then [92, 116]
  else [92, 117, 48, 48, hexSymbol (byte >>> 4), hexSymbol (byte &&& 15)]

/-- The loop of `push_escaped`: what is written, and where the run that is left begins. -/
def escapeRuns (text : Text) : (fuel : ℕ) → (out : Text) → (plain index : ℕ) → Text × ℕ
  | 0, out, plain, _ => (out, plain)
  | fuel + 1, out, plain, index =>
    match text[index]? with
    | none => (out, plain)
    | some byte =>
      let out := if index > plain then out ++ bytesSlice text plain index else out
      escapeRuns text fuel (out ++ escapeText byte) (index + 1) (bytesIndexJson text (index + 1))

def pushEscaped (out text : Text) : Text :=
  let (out, plain) := escapeRuns text (text.length + 1) out 0 (bytesIndexJson text 0)
  if plain = 0 then if text.length > 0 then out ++ text else out
  else if plain < text.length then out ++ bytesSlice text plain text.length
  else out

def pushQuoted (out text : Text) : Text := pushEscaped (out ++ ascii "\"") text ++ ascii "\""

/-! ### Values -/

/-- The digits of `append_signed` and `append_unsigned`, or the text of a float. -/
def numberText : Number F → Text
  | .negative value => signed value
  | .nonNegative value => decimal value
  | .float value => floats.text value

def lineBreak (spaced : Bool) (depth : ℕ) (out : Text) : Text :=
  if !spaced then out
  else if depth > 0 then out ++ ascii "\n" ++ (List.replicate depth (ascii "  ")).flatten
  else out ++ ascii "\n"

mutual

def render (spaced : Bool) : Json F → (depth : ℕ) → (out : Text) → Text
  | .null, _, out => out ++ ascii "null"
  | .bool flag, _, out => out ++ (if flag then ascii "true" else ascii "false")
  | .number number, _, out => out ++ numberText floats number
  | .text text, _, out => pushQuoted out text
  | .array items, depth, out =>
    if items.length = 0 then out ++ ascii "[]"
    else
      let out := renderItems spaced items true depth (out ++ ascii "[")
      lineBreak spaced depth out ++ ascii "]"
  | .object ⟨entries, _⟩, depth, out =>
    if entries.length = 0 then out ++ ascii "\x7b\x7d"
    else
      let out := renderMembers spaced entries true depth (out ++ ascii "\x7b")
      lineBreak spaced depth out ++ ascii "\x7d"

/-- The loop over the items of an array. -/
def renderItems (spaced : Bool) : List (Json F) → (first : Bool) → (depth : ℕ) → (out : Text) → Text
  | [], _, _, out => out
  | item :: items, first, depth, out =>
    let out := if !first then out ++ ascii "," else out
    let out := render spaced item (depth + 1) (lineBreak spaced (depth + 1) out)
    renderItems spaced items false depth out

/-- The loop over the members of an object. -/
def renderMembers (spaced : Bool) :
    List (Text × Json F) → (first : Bool) → (depth : ℕ) → (out : Text) → Text
  | [], _, _, out => out
  | (key, value) :: entries, first, depth, out =>
    let out := if !first then out ++ ascii "," else out
    let out := pushQuoted (lineBreak spaced (depth + 1) out) key ++
      (if spaced then ascii ": " else ascii ":")
    renderMembers spaced entries false depth (render spaced value (depth + 1) out)

end

/-- `Json.to_string` -/
def toText (value : Json F) : Text := render floats false value 0 []

def pretty (value : Json F) : Text := render floats true value 0 []

end HdLang.StdJson
