import HdLang.Types.Subst

/-!
# Which types copy

`blocker` of `crates/hd_check/src/moves.rs`, which finds the part of a type that keeps a value of it
from being copied, and the `Copy` row of `crates/hd_types/src/sealed.rs`, which derives the trait
from `copy_parts`. Both walk what a type holds by value and leave a nominal type that they are in
already, or that is under more than 32 others, for copied. Neither is structural, so both have a
fuel; what the items, the substitution and `normalize` are is a parameter.
-/

namespace HdLang.Types

/-! ### Items -/

/-- What an item declares. -/
inductive ItemData
  | data (fields : List Ty)
  | enum (shared : List Ty) (variants : List (List Ty))
  | newtype (base : Ty)
  | trait_
  | assocType (bounds : List Ty)
  | other
  deriving DecidableEq

structure Item where
  /-- The bounds of each type parameter, those of the signature for a function. -/
  generics : List (List Ty)
  /-- Declared `impl !Copy`, or a trait declared `< ?Copy`. -/
  notCopy : Bool
  data : ItemData
  deriving DecidableEq

/-- A nominal type's part in the `Copy` row. -/
inductive CopyDecl
  | copies
  | notCopy
  | members (types : List Ty)
  deriving DecidableEq

namespace Item

/-- Whether a bound on the item implies `Copy`: it is a trait whose `Self` is `Copy`. -/
def requiresCopy (item : Item) : Bool := item.data == .trait_ && !item.notCopy

def copyDecl (item : Item) : CopyDecl :=
  if item.notCopy then .notCopy
  else match item.data with
    | .data fields => .members fields
    | .enum shared variants => .members (shared ++ variants.flatten)
    | _ => .copies

end Item

/-- The trait that a bound names. -/
def Ty.traitValue? : Ty → Option DefId
  | .traitValue d _ _ => some d
  | _ => none

/-- The types that a tuple, an optional, a union or a `mut` holds, each in its place. -/
def Ty.inPlace : Ty → List Ty
  | .mut_ i => [i]
  | .option i => [i]
  | .tuple elems rest => elems ++ rest.toList
  | .union members => members
  | _ => []

/-- What the walks read. -/
structure Items where
  pool : Pool
  item : DefId → Option Item
  /-- The `?Copy` parameters of the body's local functions. -/
  relaxed : List Ty
  normalize : Ty → Ty

namespace Items

variable (cx : Items)

/-- Whether one of the bounds is on a trait that implies `Copy`. -/
def boundsCopy (bounds : List Ty) : Bool :=
  bounds.any fun bound =>
    match bound.traitValue? with
    | some d => ((cx.item d).map Item.requiresCopy).getD false
    | none => false

def paramCopies (p : ParamRef) : Bool :=
  match cx.item p.owner with
  | none => true
  | some item =>
    let inTrait := item.data = .trait_
    if inTrait ∧ p.index = 0 then !item.notCopy
    else
      match item.generics[p.index - if inTrait then 1 else 0]? with
      | none => true
      | some bounds => cx.boundsCopy bounds

/-- The types of the members of `def_[args]`. -/
def memberTypes (def_ : DefId) (args : List Ty) (types : List Ty) : List Ty :=
  types.map (cx.pool.subst fun p => if p.owner = def_ then args[p.index]? else none)

/-! ### The move checker -/

/-- `blocker`; `seen` has the innermost nominal type first. -/
def blocker : (fuel : ℕ) → (seen : List Ty) → (t : Ty) → Option (Option Ty)
  | 0, _, _ => none
  | fuel + 1, seen, t =>
    let t := match t with
      | .assoc _ _ _ _ => cx.normalize t
      | t => t
    if t ∈ seen ∨ seen.length > 32 then some none
    else match t with
      | .ref _ mutable counted => some (if mutable && !counted then some t else none)
      | .mut_ i => blocker fuel seen i
      | .option i => blocker fuel seen i
      | .tuple elems rest => (elems ++ rest.toList).findSomeM? (blocker fuel seen)
      | .union members => members.findSomeM? (blocker fuel seen)
      | .param p =>
        some (if t ∈ cx.relaxed then some t else if !cx.paramCopies p then some t else none)
      | .assoc assoc _ _ _ =>
        let copies := match cx.item assoc with
          | some ⟨_, _, .assocType bounds⟩ => cx.boundsCopy bounds
          | _ => false
        some (if !copies then some t else none)
      | .adt def_ args =>
        match cx.item def_ with
        | none => some none
        | some item =>
          match item.copyDecl with
          | .copies => some none
          | .notCopy => some (some t)
          | .members types =>
            (cx.memberTypes def_ args types).findSomeM? (blocker fuel (t :: seen))
      | _ => some none

/-! ### The trait -/

/-- What `copy_parts` writes: the nominal types it is in, the innermost first, those it found to
copy, and the parameters and variables it came to. -/
structure CopyWalk where
  inside : List Ty
  copies : List Ty
  subs : List Ty
  deriving DecidableEq

def copyDecl (def_ : DefId) : CopyDecl := ((cx.item def_).map Item.copyDecl).getD .copies

def copyParts : (fuel : ℕ) → (t : Ty) → StateT CopyWalk Option Bool
  | 0, _ => fun _ => none
  | fuel + 1, t =>
    match t with
    | .ref _ mutable counted => pure (!mutable || counted)
    | .mut_ i => copyParts fuel i
    | .option i => copyParts fuel i
    | .tuple elems rest => (elems ++ rest.toList).allM (copyParts fuel)
    | .union members => members.allM (copyParts fuel)
    | .param _ => do
      modify fun w => if t ∈ w.subs then w else { w with subs := w.subs ++ [t] }
      return true
    | .infer _ => do
      modify fun w => if t ∈ w.subs then w else { w with subs := w.subs ++ [t] }
      return true
    | .adt def_ args => do
      let w ← get
      if t ∈ w.copies ∨ t ∈ w.inside ∨ w.inside.length > 32 then return true
      else
        match cx.copyDecl def_ with
        | .copies => return true
        | .notCopy => return false
        | .members types => do
          modify fun w => { w with inside := t :: w.inside }
          let ok ← (cx.memberTypes def_ args types).allM (copyParts fuel)
          modify fun w => { w with inside := w.inside.tail }
          if ok then
            modify fun w => { w with copies := t :: w.copies }
            return true
          else return false
    | _ => return true

/-- The `Copy` arm of `row`: what the trait asks of the environment, or that it fails. -/
def copyRow (fuel : ℕ) (t : Ty) : Option (Option (List Ty)) :=
  match t with
  | .param _ => some none
  | t => do
    let (ok, w) ← (cx.copyParts fuel t).run ⟨[], [], []⟩
    return if ok then some w.subs else none

end Items

end HdLang.Types
