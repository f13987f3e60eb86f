import HdLang.Journal.Model

/-!
# The payloads of the rows

`crates/hd_run/src/journal.rs`, from `Value` to `put_handles`: what each kind of row holds, the
decoder of a journal's rows and the writers of its parts. A method is numbered by its first `Call`,
which names it, so that the decoder goes through the rows with the methods named so far.
-/

namespace HdLang.Journal

open LittleEndian

abbrev U128 := BitVec 128

/-- A host import's scalar result, as the import returned it. -/
inductive Value
  | void
  | int (v : Int64)
  /-- The IEEE 754 bits of an `f64`. -/
  | f64 (bits : UInt64)
  /-- Status and value. -/
  | pair (status v : Int32)
  deriving DecidableEq, Repr

def Value.tag : Value → UInt8
  | .void => 0
  | .int _ => 1
  | .f64 _ => 2
  | .pair _ _ => 3

/-- A host call's arguments: as they are when 8 bytes or fewer, else their length and digest. -/
inductive Request
  | args (bytes : Bytes)
  | digest (len digest : UInt64)
  deriving DecidableEq, Repr

/-- The request a `Call` row holds for the arguments `args`. -/
def Request.of (requestDigest : Bytes → UInt64) (args : Bytes) : Request :=
  if args.length ≤ 8 then .args args
  else .digest (UInt64.ofNat args.length) (requestDigest args)

/-- How an input ended, in its `End` row. -/
inductive End
  | exit (status : UInt8)
  | trapped
  | stopped
  | cancelled
  | failed
  deriving DecidableEq, Repr

/-- One decoded row. -/
inductive Event
  | header (format : UInt64) (execution : U128)
  | input (number : UInt32) (source module : U128)
  | call (module name : String) (request : Request) (value : Value) (result : Option Bytes)
  | finish (handle : UInt32) (value : Value) (result : Option Bytes)
  | wake (poll : UInt64) (handles : List UInt32)
  | block (handles : List UInt32)
  | abort (handle : UInt32)
  | cancel (poll : UInt64)
  | «end» (end' : End)
  deriving DecidableEq, Repr

/-! ### Reading parts of a payload -/

/-- `i.checked_add(n)` -/
def checkedAdd (i n : ℕ) : Option ℕ := if i + n < SIZES then some (i + n) else none

def getBytes (b : Bytes) (len : ℕ) : Read Bytes := do
  let i ← get
  let bytes ← need (slice b i (← need (checkedAdd i len)))
  set (← plus i len)
  pure bytes

/-- `bytes[0]` -/
def first : Bytes → Read UInt8
  | x :: _ => pure x
  | [] => throw .outOfRange

def getByte (b : Bytes) : Read UInt8 := do first (← getBytes b 1)

def getU64 (b : Bytes) : Read UInt64 := do return UInt64.ofNat (ofLe (← getBytes b 8))

def getU128 (b : Bytes) : Read U128 := do return BitVec.ofNat 128 (ofLe (← getBytes b 16))

/-- `text.as_bytes()` -/
def asBytes (text : String) : Bytes := text.toUTF8.data.toList

/-- `String::from_utf8(bytes).ok()` -/
def fromUtf8 (bytes : Bytes) : Option String := String.fromUTF8? ⟨bytes.toArray⟩

def getText (b : Bytes) : Read String := do
  let len ← getUleb b
  need (fromUtf8 (← getBytes b len.toNat))

/-- `u32::try_from(v).ok()` -/
def u32Of (v : UInt64) : Option UInt32 := if v.toNat < 4294967296 then some v.toUInt32 else none

def getHandlesFrom (b : Bytes) : ℕ → Read (List UInt32)
  | 0 => pure []
  | n + 1 => do
    let handle ← need (u32Of (← getUleb b))
    let handles ← getHandlesFrom b n
    pure (handle :: handles)

def getHandles (b : Bytes) : Read (List UInt32) := do
  let n ← getUleb b
  getHandlesFrom b n.toNat

/-- The low half of a number's bits. -/
def low (v : UInt64) : Int32 := v.toUInt32.toInt32

def getValue (b : Bytes) (tag : UInt8) : Read Value :=
  match (tag &&& 3).toNat with
  | 0 => pure .void
  | 1 => do return .int (← getUleb b).toInt64
  | 2 => do return .f64 (← getU64 b)
  | _ => do
    let status ← getUleb b
    let v ← getUleb b
    return .pair (low status) (low v)

def getResult (b : Bytes) (tag : UInt8) : Read (Option Bytes) :=
  match (tag >>> 2).toNat with
  | 0 => pure none
  | 1 => do
    let len ← getUleb b
    return some (← getBytes b len.toNat)
  | _ => throw .miss

def getReply (b : Bytes) : Read (Value × Option Bytes) := do
  let tag ← getByte b
  let value ← getValue b tag
  let result ← getResult b tag
  pure (value, result)

/-! ### Rows -/

abbrev Methods := List (String × String)

/-- The methods once the row that calls `method` may have named it. -/
def nameMethod (b : Bytes) (methods : Methods) (method : UInt64) : Read Methods :=
  if method.toNat = methods.length then do
    let module ← getText b
    let name ← getText b
    pure (methods ++ [(module, name)])
  else pure methods

def getRequest (b : Bytes) : Read Request := do
  let len ← getUleb b
  if len.toNat ≤ 8 then return .args (← getBytes b len.toNat)
  else return .digest len (← getU64 b)

def getCall (methods : Methods) (b : Bytes) : Read (Event × Methods) := do
  let method ← getUleb b
  let methods ← nameMethod b methods method
  let import' ← need methods[method.toNat]?
  let request ← getRequest b
  let reply ← getReply b
  pure (.call import'.1 import'.2 request reply.1 reply.2, methods)

def getEnd (b : Bytes) : Read End := do
  let tag ← getByte b
  match tag.toNat with
  | 0 => return .exit (← getByte b)
  | 1 => pure .trapped
  | 2 => pure .stopped
  | 3 => pure .cancelled
  | 4 => pure .failed
  | _ => throw .miss

/-- The event of a payload and the methods named up to its end. -/
def getEvent (methods : Methods) (b : Bytes) : RowKind → Read (Event × Methods)
  | .header => do
    let format ← getUleb b
    return (.header format (← getU128 b), methods)
  | .input => do
    let number ← need (u32Of (← getUleb b))
    let source ← getU128 b
    return (.input number source (← getU128 b), methods)
  | .call => getCall methods b
  | .finish => do
    let handle ← need (u32Of (← getUleb b))
    let reply ← getReply b
    return (.finish handle reply.1 reply.2, methods)
  | .wake => do
    let poll ← getUleb b
    return (.wake poll (← getHandles b), methods)
  | .block => do return (.block (← getHandles b), methods)
  | .abort => do return (.abort (← need (u32Of (← getUleb b))), methods)
  | .cancel => do return (.cancel (← getUleb b), methods)
  | .«end» => do return (.«end» (← getEnd b), methods)

/-- The event of a row; no byte of its payload may be left. -/
def decodeRow (row : Row) (methods : Methods) : Except Halt (Event × Methods) := do
  let (r, i) ← (getEvent methods row.payload row.kind).run 0
  if i = row.payload.length then pure r else throw .miss

/-- The kind as `{:?}` prints it. -/
def RowKind.debug : RowKind → String
  | .header => "Header"
  | .input => "Input"
  | .call => "Call"
  | .finish => "Finish"
  | .wake => "Wake"
  | .block => "Block"
  | .abort => "Abort"
  | .cancel => "Cancel"
  | .«end» => "End"

def decodeFrom : List Row → Methods → Except Halt (Except String (List Event))
  | [], _ => pure (.ok [])
  | row :: rows, methods =>
    match decodeRow row methods with
    | .ok (event, methods) => do
      let events ← decodeFrom rows methods
      pure (events.map fun events => event :: events)
    | .error .miss =>
      pure (.error ("row " ++ toString row.index ++ " (" ++ row.kind.debug ++ ") does not decode"))
    | .error halt => throw halt

/-- Decodes the rows of one journal, in order, or names the first row whose payload does not
decode. -/
def decode (rows : List Row) : Except Halt (Except String (List Event)) := decodeFrom rows []

/-! ### Writing parts of a payload -/

/-- The bits of an `i32`. -/
def bits (v : Int32) : UInt64 := v.toUInt32.toUInt64

def putValue (out : Bytes) : Value → Bytes
  | .void => out
  | .int v => putUleb out v.toUInt64
  | .f64 bits => out ++ toLe 8 bits.toNat
  | .pair status v => putUleb (putUleb out (bits status)) (bits v)

def putReply (out : Bytes) (value : Value) (result : Option Bytes) : Bytes :=
  let out := out ++ [value.tag ||| if result.isSome then 4 else 0]
  let out := putValue out value
  match result with
  | none => out
  | some bytes => putUleb out (UInt64.ofNat bytes.length) ++ bytes

def putHandles (out : Bytes) (handles : List UInt32) : Bytes :=
  handles.foldl (fun out h => putUleb out h.toUInt64) (putUleb out (UInt64.ofNat handles.length))

end HdLang.Journal
