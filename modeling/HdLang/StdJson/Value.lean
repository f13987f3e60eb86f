import HdLang.Lib.OrderedMap
import Mathlib.Data.Nat.Digits.Defs

/-!
# JSON values

The data of `std.json`, and the operations of an object. A string is its UTF-8 bytes; what the
standard library does with floats is a parameter. An operation that reads or writes behind the end
of a list panics.
-/

namespace HdLang.StdJson

/-- An hd `string`. -/
abbrev Text := List UInt8

/-- The bytes of a literal, which is ASCII. -/
def ascii (literal : String) : Text := literal.toList.map fun c => c.toNat.toUInt8

/-- What a `Number` holds: an integer below zero, one from zero up, or a finite float. -/
inductive Number (F : Type)
  | negative (value : ℤ)
  | nonNegative (value : ℕ)
  | float (value : F)
  deriving DecidableEq, Repr

def Number.fromI64 {F : Type} (value : ℤ) : Number F :=
  if value < 0 then .negative value else .nonNegative value.toNat

/-- The members of an object, in order of insertion, and the place of each key in an object that has
had more than eight. -/
structure JsonObject (J : Type) where
  entries : List (Text × J)
  index : OrderedMap Text ℕ
  deriving DecidableEq, Repr

/-- A value, over the finite floats. -/
inductive Json (F : Type)
  | null
  | bool (value : Bool)
  | number (value : Number F)
  | text (value : Text)
  | array (items : List (Json F))
  | object (fields : JsonObject (Json F))

/-- A panic. -/
inductive Panic
  | outOfBounds
  | closeWithoutOpen
  | noFrame
  | noRepresentation
  | internallyTagged (name : Text)
  deriving DecidableEq, Repr

/-- `list[at]`. -/
def item {α : Type} (list : List α) (place : ℕ) : Except Panic α :=
  match list[place]? with
  | some found => .ok found
  | none => .error .outOfBounds

namespace JsonObject

variable {J : Type}

def new : JsonObject J := ⟨[], .empty⟩

variable (self : JsonObject J)

def len : ℕ := self.entries.length

def keys : List Text := self.entries.map fun entry => entry.1

/-- The members, in the order in which `iter` gives them. -/
def iter : List (Text × J) := self.entries

/-- The place of `key` in `entries`; `index` is empty until it is kept. -/
def position (key : Text) : Option ℕ :=
  if self.index.len > 0 then self.index.get key
  else self.entries.findIdx? fun entry => entry.1 == key

def get (key : Text) : Except Panic (Option J) :=
  match self.position key with
  | some place => do
    let entry ← item self.entries place
    return some entry.2
  | none => .ok none

def containsKey (key : Text) : Bool := (self.position key).isSome

/-- The loops that fill `index`: the places of `entries`, which start at `place`. -/
def indexed : (entries : List (Text × J)) → (place : ℕ) → OrderedMap Text ℕ → OrderedMap Text ℕ
  | [], _, index => index
  | entry :: entries, place, index => indexed entries (place + 1) (index.insert entry.1 place)

def set (key : Text) (value : J) : Except Panic (JsonObject J) :=
  match self.position key with
  | some place =>
    if place < self.entries.length then
      .ok { self with entries := self.entries.set place (key, value) }
    else .error .outOfBounds
  | none =>
    let count := self.entries.length
    let entries := self.entries ++ [(key, value)]
    if self.index.len > 0 then .ok ⟨entries, self.index.insert key count⟩
    else if count ≥ 8 then .ok ⟨entries, indexed entries 0 self.index⟩
    else .ok ⟨entries, self.index⟩

def remove (key : Text) : Except Panic (Option J × JsonObject J) :=
  match self.position key with
  | none => .ok (none, self)
  | some place => do
    let removed ← item self.entries place
    let entries := self.entries.eraseIdx place
    if self.index.len > 0 then
      let index := self.index.erase key
      return (some removed.2, ⟨entries, indexed (entries.drop place) place index⟩)
    return (some removed.2, ⟨entries, self.index⟩)

/-- `eq`, where `same` is the equality of values. -/
def eq (same : J → J → Bool) (other : JsonObject J) : Except Panic Bool :=
  if self.len ≠ other.len then .ok false else all self.entries
where
  /-- The loop over the members. -/
  all : List (Text × J) → Except Panic Bool
    | [] => .ok true
    | (key, value) :: entries => do
      match ← other.get key with
      | some found => if same found value then all entries else return false
      | none => return false

end JsonObject

/-! ### Decimal text -/

/-- Decimal digits, the last one first, at least one. -/
def digits (n : ℕ) : List ℕ := if n = 0 then [0] else Nat.digits 10 n

/-- `"$value"` of an unsigned integer. -/
def decimal (n : ℕ) : Text := (digits n).reverse.map fun d => (48 + d).toUInt8

/-- `"$value"` of a signed integer. -/
def signed (value : ℤ) : Text :=
  if value < 0 then ascii "-" ++ decimal value.natAbs else decimal value.natAbs

end HdLang.StdJson
