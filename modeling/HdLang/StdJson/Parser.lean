import HdLang.StdJson.Sound

/-!
# Reading values

`parse` reads a value from a text by recursive descent, and `Json`'s own `deserialize` reads one
through any `Deserializer`. What the parser makes of a number, and all that a reader answers, are
parameters; loops have a fuel. Both make the object of a value by `set` alone, so what they read is
sound (`parse_sound`, `deserialize_sound`).
-/

namespace HdLang.StdJson

/-- Why reading stops. -/
inductive Stop (E : Type)
  | error (e : E)
  | panic (p : Panic)
  | unfinished
  deriving DecidableEq, Repr

variable {R E F α : Type}

def fail (e : E) : StateT R (Except (Stop E)) α := throw (.error e)

def orPanic (x : Except Panic α) : StateT R (Except (Stop E)) α :=
  match x with
  | .ok value => pure value
  | .error p => throw (.panic p)

/-! ### The parser -/

/-- Why `parse` fails. -/
inductive JsonError
  | unexpectedEnd (position : ℕ)
  | unexpectedCharacter (position : ℕ)
  | invalidEscape (position : ℕ)
  | loneSurrogate (position : ℕ)
  | controlCharacter (position : ℕ)
  | numberOutOfRange (position : ℕ)
  | nestingTooDeep (position : ℕ)
  deriving DecidableEq, Repr

/-- The bytes that `bytes_index_json` looks for. -/
def special (byte : UInt8) : Bool := byte < 32 || byte == 34 || byte == 92

/-- `bytes_index_json`: the offset of the first special byte from `start` on, or the length. -/
def bytesIndexJson (text : Text) (start : ℕ) : ℕ := start + (text.drop start).findIdx special

def bytesSlice (text : Text) (start stop : ℕ) : Text := (text.drop start).take (stop - start)

def hexValue (code : ℤ) : ℤ :=
  if code ≥ 48 ∧ code ≤ 57 then code - 48
  else if code ≥ 97 ∧ code ≤ 102 then code - 87
  else if code ≥ 65 ∧ code ≤ 70 then code - 55
  else -1

/-- The UTF-8 text of a scalar value. -/
def scalarText (point : ℕ) : Text :=
  if point < 128 then [point.toUInt8]
  else if point < 2048 then [(192 + (point >>> 6)).toUInt8, (128 + (point &&& 63)).toUInt8]
  else if point < 65536 then
    [(224 + (point >>> 12)).toUInt8, (128 + ((point >>> 6) &&& 63)).toUInt8,
      (128 + (point &&& 63)).toUInt8]
  else
    [(240 + (point >>> 18)).toUInt8, (128 + ((point >>> 12) &&& 63)).toUInt8,
      (128 + ((point >>> 6) &&& 63)).toUInt8, (128 + (point &&& 63)).toUInt8]

theorem orPanic_yields {P : α → Prop} {x : Except Panic α} (h : Gives P x) :
    Yields P (orPanic x : StateT R (Except (Stop E)) α) := by
  cases x with
  | ok value => exact .pure (Gives.ok_iff.mp h)
  | error p => exact .throw

section Parser

variable (text : Text)

/-- The error for a byte that cannot continue the text at `offset`. -/
def unexpected (offset : ℕ) : JsonError :=
  if offset ≥ text.length then .unexpectedEnd offset else .unexpectedCharacter offset

def skipSpace : StateT ℕ (Except (Stop JsonError)) Unit :=
  modify fun index => index + ((text.drop index).takeWhile fun byte =>
    byte == 32 || byte == 9 || byte == 10 || byte == 13).length

/-- The loop of `word`. -/
def wordFrom : (word : Text) → (index : ℕ) → Except JsonError ℕ
  | [], index => .ok index
  | byte :: word, index =>
    if text[index]? = some byte then wordFrom word (index + 1) else .error (unexpected text index)

def word (word : Text) (value : Json F) : StateT ℕ (Except (Stop JsonError)) (Json F) := do
  match wordFrom text word (← get) with
  | .ok index => do
    set index
    return value
  | .error e => fail e

/-- The loop of `hex4`, with this value for the digits before `offset`. -/
def hexFrom (index : ℕ) : (left offset : ℕ) → (value : ℤ) → ℤ
  | 0, _, value => value
  | left + 1, offset, value =>
    match text[index + offset]? with
    | none => -2
    | some byte =>
      let digit := hexValue byte.toNat
      if digit < 0 then -1 else hexFrom index left (offset + 1) (value * 16 + digit)

/-- The value of four hex digits, -1 when one is not a hex digit, or -2 when the text ends first. -/
def hex4 (index : ℕ) : ℤ := hexFrom text index 4 0 0

/-- What an escape stands for and the offset behind it; `escaped` stands after the backslash. -/
def escape (backslash : ℕ) (escaped : UInt8) : Except JsonError (Text × ℕ) :=
  let index := backslash + 2
  if escaped = 34 then .ok ([34], index)
  else if escaped = 92 then .ok ([92], index)
  else if escaped = 47 then .ok ([47], index)
  else if escaped = 98 then .ok ([8], index)
  else if escaped = 102 then .ok ([12], index)
  else if escaped = 110 then .ok ([10], index)
  else if escaped = 114 then .ok ([13], index)
  else if escaped = 116 then .ok ([9], index)
  else if escaped = 117 then
    let unit := hex4 text index
    let index := index + 4
    if unit = -2 then .error (.unexpectedEnd text.length)
    else if unit < 0 then .error (.invalidEscape backslash)
    else if unit ≥ 56320 ∧ unit ≤ 57343 then .error (.loneSurrogate backslash)
    else if unit ≥ 55296 ∧ unit ≤ 56319 then
      let low := if text[index]? = some 92 ∧ text[index + 1]? = some 117 then hex4 text (index + 2)
        else -1
      if low < 56320 ∨ low > 57343 then .error (.loneSurrogate backslash)
      else .ok (scalarText (65536 + (unit - 55296) * 1024 + (low - 56320)).toNat, index + 6)
    else .ok (scalarText unit.toNat, index)
  else .error (.invalidEscape backslash)

/-- The loop of `escaped`; `parts` is what stands before `plain`. -/
def escapedFrom : (fuel : ℕ) → (parts : Text) → (plain index : ℕ) →
    StateT ℕ (Except (Stop JsonError)) Text
  | 0, _, _, _ => throw .unfinished
  | fuel + 1, parts, plain, index =>
    let index := bytesIndexJson text index
    match text[index]? with
    | none => fail (.unexpectedEnd index)
    | some byte =>
      if byte = 34 then do
        set (index + 1)
        return parts ++ bytesSlice text plain index
      else if byte < 32 then fail (.controlCharacter index)
      else
        match text[index + 1]? with
        | none => fail (.unexpectedEnd (index + 1))
        | some escaped =>
          match escape text index escaped with
          | .error e => fail e
          | .ok (part, next) =>
            escapedFrom fuel (parts ++ bytesSlice text plain index ++ part) next next

/-- The string whose opening quote is at the offset. -/
def string : StateT ℕ (Except (Stop JsonError)) Text := do
  let start := (← get) + 1
  let index := bytesIndexJson text start
  match text[index]? with
  | none => fail (.unexpectedEnd index)
  | some byte =>
    if byte = 34 then do
      set (index + 1)
      return bytesSlice text start index
    else if byte = 92 then escapedFrom text (text.length + 1) [] start index
    else fail (.controlCharacter index)

/-- `number` reads the number at an offset, and says where it ends. -/
def readNumber (number : ℕ → Except JsonError (Number F × ℕ)) :
    StateT ℕ (Except (Stop JsonError)) (Json F) := do
  match number (← get) with
  | .error e => fail e
  | .ok (found, index) => do
    set index
    return .number found

variable (number : ℕ → Except JsonError (Number F × ℕ))

mutual

/-- The value after any whitespace. -/
def value : (fuel depth : ℕ) → StateT ℕ (Except (Stop JsonError)) (Json F)
  | 0, _ => throw .unfinished
  | fuel + 1, depth => do
    skipSpace text
    let index ← get
    match text[index]? with
    | none => fail (.unexpectedEnd index)
    | some byte =>
      if byte = 34 then do
        let found ← string text
        return .text found
      else if byte = 123 then object fuel depth
      else if byte = 91 then array fuel depth
      else if byte = 116 then word text (ascii "true") (.bool true)
      else if byte = 102 then word text (ascii "false") (.bool false)
      else if byte = 110 then word text (ascii "null") .null
      else if byte = 45 ∨ byte ≥ 48 ∧ byte ≤ 57 then readNumber number
      else fail (.unexpectedCharacter index)

/-- The array whose `[` is at the offset. -/
def array : (fuel depth : ℕ) → StateT ℕ (Except (Stop JsonError)) (Json F)
  | 0, _ => throw .unfinished
  | fuel + 1, depth => do
    let start ← get
    if depth ≥ 128 then fail (.nestingTooDeep start)
    else do
      set (start + 1)
      skipSpace text
      let index ← get
      if text[index]? = some 93 then do
        set (index + 1)
        return .array []
      else items fuel depth []

/-- The loop of `array`. -/
def items : (fuel depth : ℕ) → (found : List (Json F)) → StateT ℕ (Except (Stop JsonError)) (Json F)
  | 0, _, _ => throw .unfinished
  | fuel + 1, depth, found => do
    let item ← value fuel (depth + 1)
    skipSpace text
    let index ← get
    if text[index]? = some 44 then do
      set (index + 1)
      items fuel depth (found ++ [item])
    else if text[index]? = some 93 then do
      set (index + 1)
      return .array (found ++ [item])
    else fail (unexpected text index)

/-- The object whose brace is at the offset. -/
def object : (fuel depth : ℕ) → StateT ℕ (Except (Stop JsonError)) (Json F)
  | 0, _ => throw .unfinished
  | fuel + 1, depth => do
    let start ← get
    if depth ≥ 128 then fail (.nestingTooDeep start)
    else do
      set (start + 1)
      skipSpace text
      let index ← get
      if text[index]? = some 125 then do
        set (index + 1)
        return .object .new
      else members fuel depth .new

/-- The loop of `object`. -/
def members : (fuel depth : ℕ) → (fields : JsonObject (Json F)) →
    StateT ℕ (Except (Stop JsonError)) (Json F)
  | 0, _, _ => throw .unfinished
  | fuel + 1, depth, fields => do
    let quote ← get
    if text[quote]? ≠ some 34 then fail (unexpected text quote)
    else do
      let key ← string text
      skipSpace text
      let colon ← get
      if text[colon]? ≠ some 58 then fail (unexpected text colon)
      else do
        set (colon + 1)
        let found ← value fuel (depth + 1)
        let fields ← orPanic (fields.set key found)
        skipSpace text
        let index ← get
        if text[index]? = some 44 then do
          set (index + 1)
          skipSpace text
          members fuel depth fields
        else if text[index]? = some 125 then do
          set (index + 1)
          return .object fields
        else fail (unexpected text index)

end

/-- The body of `parse`. -/
def parseAll (fuel : ℕ) : StateT ℕ (Except (Stop JsonError)) (Json F) := do
  let found ← value text number fuel 0
  skipSpace text
  let index ← get
  if index < text.length then fail (.unexpectedCharacter index)
  else return found

def parse (fuel : ℕ) : Except (Stop JsonError) (Json F) := Prod.fst <$>
  (parseAll text number fuel).run 0

variable {text number}

theorem word_yields {literal : Text} {value : Json F} (h : value.Sound) :
    Yields Json.Sound (word text literal value) := by
  refine .next fun index => ?_
  split
  · exact .next fun _ => .pure h
  · exact .throw

theorem readNumber_yields : Yields Json.Sound (readNumber number) := by
  refine .next fun index => ?_
  split
  · exact .throw
  · exact .next fun _ => .pure (.number _)

/-- Every function of the descent makes sound values, of sound values in its loops. -/
theorem parser_yields (fuel : ℕ) :
    (∀ depth, Yields Json.Sound (value text number fuel depth)) ∧
    (∀ depth, Yields Json.Sound (array text number fuel depth)) ∧
    (∀ depth found, (∀ item ∈ found, Json.Sound item) →
      Yields Json.Sound (items text number fuel depth found)) ∧
    (∀ depth, Yields Json.Sound (object text number fuel depth)) ∧
    (∀ depth fields, Json.Sound (.object fields) →
      Yields Json.Sound (members text number fuel depth fields)) := by
  induction fuel with
  | zero =>
    exact ⟨fun _ => by rw [value]; exact .throw, fun _ => by rw [array]; exact .throw,
      fun _ _ _ => by rw [items]; exact .throw, fun _ => by rw [object]; exact .throw,
      fun _ _ _ => by rw [members]; exact .throw⟩
  | succ fuel ih =>
    obtain ⟨hvalue, harray, hitems, hobject, hmembers⟩ := ih
    refine ⟨fun depth => ?_, fun depth => ?_, fun depth found hfound => ?_, fun depth => ?_,
      fun depth fields hfields => ?_⟩
    · rw [value]
      refine .next fun _ => .next fun index => ?_
      split
      · exact .throw
      · refine .ite (.next fun _ => .pure (.text _)) <| .ite (hobject depth) <|
          .ite (harray depth) <| .ite (word_yields (.bool _)) <| .ite (word_yields (.bool _)) <|
          .ite (word_yields .null) <| .ite readNumber_yields .throw
    · rw [array]
      refine .next fun start => .ite .throw <| .next fun _ => .next fun _ => .next fun index => ?_
      exact .ite (.next fun _ => .pure (.array fun _ h => nomatch h))
        (hitems depth [] fun _ h => nomatch h)
    · rw [items]
      refine (hvalue (depth + 1)).bind fun item hitem => .next fun _ => .next fun index => ?_
      have hall : ∀ other ∈ found ++ [item], Json.Sound other := fun other hother =>
        (List.mem_append.mp hother).elim (hfound other) fun h => List.mem_singleton.mp h ▸ hitem
      exact .ite (.next fun _ => hitems depth _ hall) <|
        .ite (.next fun _ => .pure (.array hall)) .throw
    · rw [object]
      refine .next fun start => .ite .throw <| .next fun _ => .next fun _ => .next fun index => ?_
      exact .ite (.next fun _ => .pure .new) (hmembers depth _ .new)
    · rw [members]
      refine .next fun quote => .ite .throw <| .next fun key => .next fun _ => .next fun colon => ?_
      refine .ite .throw <| .next fun _ => (hvalue (depth + 1)).bind fun found hfound => ?_
      refine (orPanic_yields (hfields.set hfound)).bind fun fields hfields => ?_
      refine .next fun _ => .next fun index => ?_
      exact .ite (.next fun _ => .next fun _ => hmembers depth fields hfields) <|
        .ite (.next fun _ => .pure hfields) .throw

theorem parse_sound (fuel : ℕ) : Gives Json.Sound (parse text number fuel) := by
  have hall : Yields Json.Sound (parseAll text number fuel) :=
    ((parser_yields fuel).1 0).bind fun found hfound => .next fun _ => .next fun index =>
      .ite .throw (.pure hfound)
  exact Gives.map_iff.mpr (hall 0)

end Parser

/-! ### `deserialize` -/

/-- What `peek` says that the next value is. -/
inductive Kind
  | null | bool | int | uint | float | text | list | map
  deriving DecidableEq, Repr

/-- The methods of a `Deserializer` that `Json` calls. -/
structure Deserializer (R E F : Type) where
  peek : StateT R (Except E) Kind
  isNull : StateT R (Except E) Bool
  bool (expected : Text) : StateT R (Except E) Bool
  int (expected : Text) : StateT R (Except E) ℤ
  uint (expected : Text) : StateT R (Except E) ℕ
  float (expected : Text) : StateT R (Except E) F
  text (expected : Text) : StateT R (Except E) Text
  beginList : StateT R (Except E) Unit
  nextItem : StateT R (Except E) Bool
  beginMap : StateT R (Except E) Unit
  nextKey : StateT R (Except E) (Option Text)

/-- A call of the reader. -/
def ask (x : StateT R (Except E) α) : StateT R (Except (Stop E)) α := fun input =>
  match x.run input with
  | .ok answer => .ok answer
  | .error e => .error (.error e)

section Deserialize

variable (isFinite : F → Bool) (input : Deserializer R E F)

mutual

def deserialize : (fuel : ℕ) → StateT R (Except (Stop E)) (Json F)
  | 0 => throw .unfinished
  | fuel + 1 => do
    match ← ask input.peek with
    | .null => do
      let _ ← ask input.isNull
      return .null
    | .bool => return .bool (← ask (input.bool (ascii "bool")))
    | .int => return .number (.fromI64 (← ask (input.int (ascii "i64"))))
    | .uint => return .number (.nonNegative (← ask (input.uint (ascii "u64"))))
    | .float => do
      let found ← ask (input.float (ascii "f64"))
      return if isFinite found then .number (.float found) else .null
    | .text => return .text (← ask (input.text (ascii "string")))
    | .list => do
      ask input.beginList
      readItems fuel []
    | .map => do
      ask input.beginMap
      readMembers fuel .new

/-- The loop over the items of a list. -/
def readItems : (fuel : ℕ) → (items : List (Json F)) → StateT R (Except (Stop E)) (Json F)
  | 0, _ => throw .unfinished
  | fuel + 1, items => do
    if ← ask input.nextItem then do
      let item ← deserialize fuel
      readItems fuel (items ++ [item])
    else return .array items

/-- The loop over the members of a map. -/
def readMembers : (fuel : ℕ) → (fields : JsonObject (Json F)) → StateT R (Except (Stop E)) (Json F)
  | 0, _ => throw .unfinished
  | fuel + 1, fields => do
    match ← ask input.nextKey with
    | some key => do
      let found ← deserialize fuel
      let fields ← orPanic (fields.set key found)
      readMembers fuel fields
    | none => return .object fields

end

variable {isFinite input}

theorem deserialize_yields (fuel : ℕ) :
    Yields Json.Sound (deserialize isFinite input fuel) ∧
    (∀ items, (∀ item ∈ items, Json.Sound item) →
      Yields Json.Sound (readItems isFinite input fuel items)) ∧
    (∀ fields, Json.Sound (.object fields) →
      Yields Json.Sound (readMembers isFinite input fuel fields)) := by
  induction fuel with
  | zero => exact ⟨.throw, fun _ _ => .throw, fun _ _ => .throw⟩
  | succ fuel ih =>
    obtain ⟨hvalue, hitems, hmembers⟩ := ih
    refine ⟨.next fun kind => ?_, fun items hall => .next fun more => ?_,
      fun fields hfields => .next fun key => ?_⟩
    · cases kind with
      | null => exact .next fun _ => .pure .null
      | bool => exact .next fun _ => .pure (.bool _)
      | int => exact .next fun _ => .pure (.number _)
      | uint => exact .next fun _ => .pure (.number _)
      | float =>
        refine .next fun found => .pure ?_
        split
        · exact .number _
        · exact .null
      | text => exact .next fun _ => .pure (.text _)
      | list => exact .next fun _ => hitems [] fun _ h => nomatch h
      | map => exact .next fun _ => hmembers .new .new
    · refine .ite (hvalue.bind fun item hitem => hitems _ fun other hother => ?_)
        (.pure (.array hall))
      exact (List.mem_append.mp hother).elim (hall other) fun h => List.mem_singleton.mp h ▸ hitem
    · cases key with
      | some key =>
        refine hvalue.bind fun found hfound => ?_
        exact (orPanic_yields (hfields.set hfound)).bind fun fields hfields => hmembers fields
          hfields
      | none => exact .pure hfields

/-- What `deserialize` reads is sound, from every reader. -/
theorem deserialize_sound (fuel : ℕ) (state : R) :
    Gives (fun read => Json.Sound read.1) ((deserialize isFinite input fuel).run state) :=
  (deserialize_yields fuel).1 state

end Deserialize

end HdLang.StdJson
