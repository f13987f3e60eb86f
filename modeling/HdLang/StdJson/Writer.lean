import HdLang.StdJson.Value

/-!
# The tree of a walk

What `Serialize` implementations do with a `Serializer`, as the list of the calls they make, and
`JsonWriter`, which builds the tree of a walk. The items of every open container sit on one stack,
each beside its key; closing a container replaces its items with its value. A walk that the writer
has no meaning for ends in a panic.
-/

namespace HdLang.StdJson

/-! ### Facts -/

inductive EnumTagging
  | internal (tag : Text)
  | adjacent (tag content : Text)
  | untagged
  deriving DecidableEq, Repr

/-- A fact, by its type: the three that serialization looks for, or another. -/
inductive Fact (Case : Type)
  | tagging (tagging : EnumTagging)
  | rename (name : Text)
  | renameAll (style : Case)
  | other

/-- The facts of a type, a member or a variant; the cases of `rename_all` are a parameter. -/
abbrev Facts (Case : Type) := List (Fact Case)

variable {Case F : Type}

/-- `facts.find::[EnumTagging]()`. -/
def enumTagging (facts : Facts Case) : Option EnumTagging :=
  facts.findSome? fun
    | .tagging found => some found
    | _ => none

structure VariantInfo where
  name : Text
  ofData : Bool
  named : ℕ
  includedPositional : ℕ
  deriving DecidableEq, Repr

structure Member (Case : Type) where
  name : Text
  facts : Facts Case

/-- `member_name`: a member rename, then the container's `rename_all`, then the source name. -/
def memberName (caseName : Text → Case → Text) (member : Member Case) (container : Facts Case) :
    Text :=
  match member.facts.findSome? fun | .rename name => some name | _ => none with
  | some name => name
  | none =>
    match container.findSome? fun | .renameAll style => some style | _ => none with
    | some style => caseName member.name style
    | none => member.name

inductive MapKeyValue
  | bool (value : Bool)
  | int (value : ℤ)
  | uint (value : ℕ)
  | text (value : Text)
  deriving DecidableEq, Repr

def mapKeyText : MapKeyValue → Text
  | .bool value => if value then ascii "true" else ascii "false"
  | .int value => signed value
  | .uint value => decimal value
  | .text value => value

/-- A call of a `Serializer` method. -/
inductive Call (Case F : Type)
  | null
  | bool (value : Bool)
  | int (value : ℤ)
  | uint (value : ℕ)
  | float (value : F)
  | text (value : Text)
  | beginList (len : ℕ)
  | endList
  | beginMap (len : ℕ)
  | key (key : Text)
  | mapKey (key : MapKeyValue)
  | endMap
  | beginData (facts : Facts Case) (v : VariantInfo)
  | beginVariant (facts : Facts Case) (v : VariantInfo)
  | beginNewtypeVariant (facts : Facts Case) (v : VariantInfo)
  | beginTupleVariant (facts : Facts Case) (v : VariantInfo) (len : ℕ)
  | member (m : Member Case)
  | endData
  | endVariant

/-! ### The tree writer -/

/-- One open list, map, or variant. -/
structure OpenFrame (Case : Type) where
  kind : ℕ
  start : ℕ
  key : Text
  name : Text
  ofData : Bool
  facts : Facts Case

structure JsonWriter (Case F : Type) where
  result : Json F
  pending : Text
  keys : List Text
  values : List (Json F)
  /-- The innermost frame first. -/
  frames : List (OpenFrame Case)

/-- The members with these keys, a later equal key in the place of the earlier. The two stacks of a
writer have one length. -/
def objectOf (keys : List Text) (values : List (Json F)) : Except Panic (JsonObject (Json F)) :=
  (keys.zip values).foldlM (fun fields entry => fields.set entry.1 entry.2) .new

/-- The value that a newtype variant holds. -/
def single (values : List (Json F)) : Json F := values.headD .null

/-- What an internally tagged variant holds. -/
def payload (frame : OpenFrame Case) (keys : List Text) (values : List (Json F)) :
    Except Panic (Json F) :=
  if frame.kind - 4 = 2 then .ok (single values) else .object <$> objectOf keys values

def taggedJson (frame : OpenFrame Case) (keys : List Text) (values : List (Json F)) :
    EnumTagging → Except Panic (Json F)
  | .internal tag => do
    match ← payload frame keys values with
    | .object fields => return .object ⟨(tag, .text frame.name) :: fields.entries, .empty⟩
    | _ => throw (.internallyTagged frame.name)
  | .adjacent tag content => do
    let object ← JsonObject.new.set tag (.text frame.name)
    match frame.kind - 4 with
    | 0 => return .object object
    | 1 => .object <$> object.set content (.object (← objectOf keys values))
    | 2 => .object <$> object.set content (single values)
    | _ => .object <$> object.set content (.array values)
  | .untagged =>
    match frame.kind - 4 with
    | 0 => .ok .null
    | 1 => .object <$> objectOf keys values
    | 2 => .ok (single values)
    | _ => .ok (.array values)

namespace JsonWriter

/-- The writer that `to_json` starts with. -/
def start : JsonWriter Case F := ⟨.null, [], [], [], []⟩

variable (w : JsonWriter Case F)

def put (value : Json F) : JsonWriter Case F :=
  if w.frames.length = 0 then { w with result := value }
  else { w with keys := w.keys ++ [w.pending], values := w.values ++ [value] }

def «open» (kind : ℕ) (name : Text) (ofData : Bool) (facts : Facts Case) : JsonWriter Case F :=
  { w with frames := ⟨kind, w.values.length, w.pending, name, ofData, facts⟩ :: w.frames }

def openTagged (name : Text) (facts : Facts Case) (form : ℕ) : JsonWriter Case F :=
  w.open (4 + form) name false facts

/-- The innermost frame, its keys and its items, popped. -/
def close : Except Panic (OpenFrame Case × List Text × List (Json F) × JsonWriter Case F) :=
  match w.frames with
  | [] => .error .closeWithoutOpen
  | frame :: frames =>
    .ok (frame, w.keys.drop frame.start, w.values.drop frame.start,
      { w with pending := frame.key, keys := w.keys.take frame.start,
               values := w.values.take frame.start, frames := frames })

def key (key : Text) : JsonWriter Case F := { w with pending := key }

/-- Names the innermost frame. -/
def rename (name : Text) : JsonWriter Case F :=
  { w with frames := w.frames.modifyHead fun frame => { frame with name := name } }

def endList : Except Panic (JsonWriter Case F) := do
  let (_, _, values, w) ← w.close
  return w.put (.array values)

def endMap : Except Panic (JsonWriter Case F) := do
  let (_, keys, values, w) ← w.close
  return w.put (.object (← objectOf keys values))

def beginVariant (facts : Facts Case) (v : VariantInfo) : JsonWriter Case F :=
  match enumTagging facts with
  | some _ => w.openTagged v.name facts (if v.named = 0 ∧ v.includedPositional = 0 then 0 else 1)
  | none => w.open (if !v.ofData && v.named > 0 then 3 else 2) v.name v.ofData facts

def beginNewtypeVariant (facts : Facts Case) (v : VariantInfo) : JsonWriter Case F :=
  match enumTagging facts with
  | some _ => w.openTagged v.name facts 2
  | none => ((w.open 1 [] false []).key v.name).rename v.name

def beginTupleVariant (facts : Facts Case) (v : VariantInfo) : JsonWriter Case F :=
  match enumTagging facts with
  | some _ => w.openTagged v.name facts 3
  | none => (((w.open 1 [] false []).key v.name).open 0 [] false []).rename v.name

def endVariant : Except Panic (JsonWriter Case F) :=
  match w.frames with
  | [] => .error .noFrame
  | frame :: _ =>
    if frame.kind ≥ 4 then
      match enumTagging frame.facts with
      | none => .error .noRepresentation
      | some tagging => do
        let (frame, keys, values, w) ← w.close
        return w.put (← taggedJson frame keys values tagging)
    else if frame.name ≠ [] ∧ frame.kind = 0 then do
      let w ← w.endList
      w.endMap
    else if frame.name ≠ [] ∧ frame.kind = 1 then w.endMap
    else do
      let (frame, keys, values, w) ← w.close
      let fields ← objectOf keys values
      if frame.ofData then return w.put (.object fields)
      if fields.len = 0 ∧ frame.kind ≠ 3 then return w.put (.text frame.name)
      return w.put (.object (← JsonObject.new.set frame.name (.object fields)))

end JsonWriter

section Calls

variable (isFinite : F → Bool) (caseName : Text → Case → Text)

/-- What a call does to a `JsonWriter`. -/
def JsonWriter.step (w : JsonWriter Case F) : Call Case F → Except Panic (JsonWriter Case F)
  | .null => .ok (w.put .null)
  | .bool value => .ok (w.put (.bool value))
  | .int value => .ok (w.put (.number (.fromI64 value)))
  | .uint value => .ok (w.put (.number (.nonNegative value)))
  | .float value =>
    .ok (w.put (if isFinite value then .number (.float value) else .null))
  | .text value => .ok (w.put (.text value))
  | .beginList _ => .ok (w.open 0 [] false [])
  | .endList => w.endList
  | .beginMap _ => .ok (w.open 1 [] false [])
  | .key key => .ok (w.key key)
  | .mapKey key => .ok (w.key (mapKeyText key))
  | .endMap => w.endMap
  | .beginData facts v => .ok (w.open 2 v.name true facts)
  | .beginVariant facts v => .ok (w.beginVariant facts v)
  | .beginNewtypeVariant facts v => .ok (w.beginNewtypeVariant facts v)
  | .beginTupleVariant facts v _ => .ok (w.beginTupleVariant facts v)
  | .member m => .ok (w.key (memberName caseName m ((w.frames.head?.map (·.facts)).getD [])))
  | .endData => w.endMap
  | .endVariant => w.endVariant

/-- `to_json` of a value that makes these calls. -/
def toJson (calls : List (Call Case F)) : Except Panic (Json F) := do
  let w ← calls.foldlM (JsonWriter.step isFinite caseName) .start
  return w.result

end Calls

end HdLang.StdJson
