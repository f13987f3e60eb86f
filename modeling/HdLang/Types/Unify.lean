import HdLang.Lib.Outcome
import HdLang.Types.Model
import Mathlib.Algebra.Group.Nat.Defs

/-!
# The unifier

`crates/hd_types/src/unify.rs`: union-find over inference variables, with a trail for rollback.

The columns are lists, and an index outside one is a panic. The trail's newest entry is its head. A
walk that the source bounds by nothing takes a number of turns (`fuel`) here: what runs out of them has
not ended yet. A unification that fails stops where it is and leaves the table as it is then.
-/

namespace HdLang.Types

/-- A variable's kind. -/
inductive VarKind
  | general
  | intLit
  | signedIntLit
  | floatLit
  deriving DecidableEq, Repr

inductive UnifyError
  | mismatch (expected found : Ty)
  | occurs (var : ℕ) (ty : Ty)
  | kind (var : ℕ) (ty : Ty)

/-- Why a run of the unifier gives nothing. -/
inductive Halt
  | panic
  | fuel
  deriving DecidableEq, Repr

inductive Undo
  | bind (v : ℕ)
  | parent (v old : ℕ)
  | rank (v old : ℕ)
  | kind (v : ℕ) (old : VarKind)
  | rebind (v : ℕ) (old : Option Ty)
  deriving DecidableEq

structure InferTable where
  parent : List ℕ
  rank : List ℕ
  binding : List (Option Ty)
  kind : List VarKind
  trail : List Undo
  deriving DecidableEq

structure TrialMark where
  trail : ℕ
  vars : ℕ

/-- A read of a column. -/
def column {α : Type} (l : List α) (v : ℕ) : Except Halt α :=
  match l[v]? with
  | some x => .ok x
  | none => .error .panic

/-- A write to a column. -/
def store {α : Type} (l : List α) (v : ℕ) (x : α) : Except Halt (List α) :=
  if v < l.length then .ok (l.set v x) else .error .panic

namespace InferTable

/-- `InferTable::default` -/
def empty : InferTable := ⟨[], [], [], [], []⟩

def varCount (t : InferTable) : ℕ := t.parent.length

/-- `fresh`: the table with one variable more, and that variable. -/
def fresh (t : InferTable) (kind : VarKind) : Except Halt (Ty × InferTable) :=
  if t.varCount < 2 ^ 32 then
    .ok (.infer t.varCount,
      { t with
        parent := t.parent ++ [t.varCount]
        rank := t.rank ++ [0]
        binding := t.binding ++ [none]
        kind := t.kind ++ [kind] })
  else .error .panic

def root (t : InferTable) : ℕ → ℕ → Except Halt ℕ
  | 0, _ => .error .fuel
  | fuel + 1, v => do
    let p ← column t.parent v
    if p ≠ v then t.root fuel p else pure v

def snapshot (t : InferTable) : ℕ := t.trail.length

/-- Takes one entry of the trail back. -/
def undo (t : InferTable) : Undo → Except Halt InferTable
  | .bind v => do
    let binding ← store t.binding v none
    pure { t with binding }
  | .parent v old => do
    let parent ← store t.parent v old
    pure { t with parent }
  | .rank v old => do
    let rank ← store t.rank v old
    pure { t with rank }
  | .kind v k => do
    let kind ← store t.kind v k
    pure { t with kind }
  | .rebind v old => do
    let binding ← store t.binding v old
    pure { t with binding }

/-- The loop of `rollback`, over the entries of the trail. -/
def unwind (s : ℕ) : List Undo → InferTable → Except Halt InferTable
  | [], t => pure t
  | u :: older, t =>
    if older.length + 1 > s then do
      let t ← { t with trail := older }.undo u
      unwind s older t
    else pure t

def rollback (t : InferTable) (s : ℕ) : Except Halt InferTable := unwind s t.trail t

def trialMark (t : InferTable) : TrialMark := ⟨t.trail.length, t.varCount⟩

def rollbackTrial (t : InferTable) (m : TrialMark) : Except Halt InferTable := do
  let t ← t.rollback m.trail
  pure { t with
    parent := t.parent.take m.vars
    rank := t.rank.take m.vars
    binding := t.binding.take m.vars
    kind := t.kind.take m.vars }

def shallow (t : InferTable) : ℕ → Ty → Except Halt Ty
  | 0, _ => .error .fuel
  | fuel + 1, ty =>
    match ty with
    | .infer v => do
      let root ← t.root fuel v
      match ← column t.binding root with
      | some b => t.shallow fuel b
      -- for the root itself this is the type it came with
      | none => pure (.infer root)
    | ty => pure ty

def rebind (t : InferTable) (fuel : ℕ) (var ty : Ty) : Except Halt InferTable :=
  match var with
  | .infer v => do
    let r ← t.root fuel v
    let old ← column t.binding r
    let binding ← store t.binding r (some ty)
    pure { t with binding, trail := .rebind r old :: t.trail }
  | _ => pure t

/-- `alias` -/
def alias_ (t : InferTable) (fuel : ℕ) (var ty : Ty) : Except Halt InferTable :=
  match var with
  | .infer v => do
    let r ← t.root fuel v
    if (← column t.binding r).isSome then pure t
    else if (← t.shallow fuel ty) = (← t.shallow fuel var) then pure t
    else do
      let binding ← store t.binding r (some ty)
      pure { t with binding, trail := .rebind r none :: t.trail }
  | _ => pure t

def markSigned (t : InferTable) (fuel : ℕ) (ty : Ty) : Except Halt InferTable := do
  match ← t.shallow fuel ty with
  | .infer v => do
    let r ← t.root fuel v
    if (← column t.kind r) = .intLit then do
      let kind ← store t.kind r .signedIntLit
      pure { t with kind, trail := .kind r .intLit :: t.trail }
    else pure t
  | _ => pure t

variable (pool : Pool)

/-- `resolve_row`, with `resolve` for its keys. -/
def resolveRow (resolve : Ty → Except Halt Ty) (r : RowData Ty) : Except Halt (RowData Ty) :=
  if r.keys.any Ty.hasInfer then do
    let keys ← r.keys.mapM resolve
    pure (pool.row { r with keys })
  else pure r

/-- What `resolve` makes of a type that is no variable, with `resolve` for what it is made of. -/
def resolveParts (resolve : Ty → Except Halt Ty) : Ty → Except Halt Ty
  | .adt d args => do pure (.adt d (← args.mapM resolve))
  | .opaque_ owner site borrows args bound => do
    pure (.opaque_ owner site borrows (← args.mapM resolve) (← resolve bound))
  | .tuple elems rest => do pure (.tuple (← elems.mapM resolve) (← rest.mapM resolve))
  | .union members => do pure (.union (← members.mapM resolve))
  | .option i => do pure (.option (← resolve i))
  | .mut_ i => do pure (.mut_ (← resolve i))
  | .ref inner mutable counted => do pure (.ref (← resolve inner) mutable counted)
  | .fn params result row suspends inputs deps => do
    pure (.fn (← params.mapM resolve) (← resolve result) (← resolveRow pool resolve row) suspends
      inputs deps)
  | .row row => do pure (.row (← resolveRow pool resolve row))
  | .context row => do pure (.context (← resolveRow pool resolve row))
  | .traitValue d args bindings => do
    pure (.traitValue d (← args.mapM resolve)
      (← bindings.mapM fun b => do pure (b.1, ← resolve b.2)))
  | .assoc assoc trait_ selfTy args => do
    pure (.assoc assoc trait_ (← resolve selfTy) (← args.mapM resolve))
  | other => pure other

/-- `resolve`: every variable it can, recursively. -/
def resolve (t : InferTable) : ℕ → Ty → Except Halt Ty
  | 0, _ => .error .fuel
  | fuel + 1, ty => do
    let ty ← t.shallow fuel ty
    if ty.hasInfer then do
      let d ← resolveParts pool (t.resolve fuel) ty
      pure (Pool.internTy d)
    else pure ty

def occurs (t : InferTable) (v : ℕ) : ℕ → Ty → Except Halt Bool
  | 0, _ => .error .fuel
  | fuel + 1, ty => do
    match ← t.shallow fuel ty with
    | .infer w => return (← t.root fuel w) == v
    | .adt _ l => l.anyM (t.occurs v fuel)
    | .opaque_ _ _ _ args bound =>
      if ← t.occurs v fuel bound then return true else args.anyM (t.occurs v fuel)
    | .tuple elems rest => (elems ++ rest.toList).anyM (t.occurs v fuel)
    | .union members => members.anyM (t.occurs v fuel)
    | .option i | .mut_ i | .ref i _ _ => t.occurs v fuel i
    | .fn params result _ _ _ _ =>
      if ← t.occurs v fuel result then return true else params.anyM (t.occurs v fuel)
    | _ => return false

end InferTable

/-! ### Unification -/

/-- A run of the unifier over its table. -/
abbrev Unifying := ExceptT UnifyError (StateT InferTable (Except Halt))

/-- The types that a class of this kind takes. -/
def VarKind.takes : VarKind → Ty → Bool
  | .general, _ => true
  | _, .poison => true
  | _, .never => true
  | .intLit, .prim p => p.isInteger
  | .signedIntLit, .prim p => p.isInteger
  | .floatLit, .prim p => p.isFloat
  | _, _ => false

/-- The kind of two classes joined: an integer class and a float class never join. -/
def VarKind.merged : VarKind → VarKind → Option VarKind
  | .general, k => some k
  | k, .general => some k
  | .floatLit, .floatLit => some .floatLit
  | .floatLit, _ => none
  | _, .floatLit => none
  | .signedIntLit, _ => some .signedIntLit
  | _, .signedIntLit => some .signedIntLit
  | _, _ => some .intLit

namespace InferTable

/-- Writes a parent, undoably. -/
def setParent (t : InferTable) (child root : ℕ) : Except Halt InferTable := do
  let old ← column t.parent child
  let parent ← store t.parent child root
  pure { t with parent, trail := .parent child old :: t.trail }

/-- Raises the rank of a root, undoably. The column holds `u8`. -/
def raiseRank (t : InferTable) (root rank : ℕ) : Except Halt InferTable := do
  let ranks ← store t.rank root ((rank + 1) % 256)
  pure { t with rank := ranks, trail := .rank root rank :: t.trail }

/-- Gives a class its kind, undoably. -/
def setKind (t : InferTable) (root : ℕ) (merged : VarKind) : Except Halt InferTable := do
  let kr ← column t.kind root
  if merged ≠ kr then do
    let kind ← store t.kind root merged
    pure { t with kind, trail := .kind root kr :: t.trail }
  else pure t

/-- Links two roots, the one of lower rank to the other; on a tie `x` joins `y`. -/
def link (t : InferTable) (x y : ℕ) (merged : VarKind) : Except Halt InferTable := do
  let rx ← column t.rank x
  let ry ← column t.rank y
  let (child, root) := if rx > ry then (y, x) else (x, y)
  let t ← t.setParent child root
  let t ← (if rx = ry then t.raiseRank root ry else pure t)
  t.setKind root merged

end InferTable

def bind (fuel v : ℕ) (ty : Ty) : Unifying Unit := do
  let t ← get
  if ← liftM (t.occurs v fuel ty) then throw (.occurs v ty)
  else if (← liftM (column t.kind v)).takes ty then do
    let binding ← liftM (store t.binding v (some ty))
    set { t with binding, trail := .bind v :: t.trail }
  else throw (.kind v ty)

/-- `unify`, for two variables. -/
def unifyVars (fuel x y : ℕ) (a b : Ty) : Unifying Unit := do
  let t ← get
  let x ← liftM (t.root fuel x)
  let y ← liftM (t.root fuel y)
  match (← liftM (column t.kind x)).merged (← liftM (column t.kind y)) with
  | none => throw (.mismatch a b)
  | some merged => if x = y then pure () else set (← liftM (t.link x y merged))

/-- Whether the class of a variable is a general one. -/
def isGeneral (fuel x : ℕ) : Unifying Bool := do
  let t ← get
  return (← liftM (column t.kind (← liftM (t.root fuel x)))) == .general

/-- `bind`, for the class of a variable. -/
def bindClass (fuel x : ℕ) (ty : Ty) : Unifying Unit := do
  let t ← get
  bind fuel (← liftM (t.root fuel x)) ty

/-- The variable that a row consists of. -/
def rowVariable (row : RowData Ty) : Option ℕ :=
  match row.keys, row.params with
  | [.infer v], [] => some v
  | _, _ => none

/-- The trait of a row's key. -/
def traitOf : Ty → Option DefId
  | .traitValue d _ _ => some d
  | _ => none

/-- The key of a trait, when it has one only. -/
def only (keys : List Ty) (d : DefId) : Option Ty :=
  match keys.filter (traitOf · = some d) with
  | [k] => some k
  | _ => none

section

variable (pool : Pool)

def unifyDataRows (fuel : ℕ) (r₁ r₂ : RowData Ty) (a b : Ty) : Unifying Unit := do
  let t ← get
  let r₁ ← liftM (InferTable.resolveRow pool (t.resolve pool fuel) r₁)
  let r₂ ← liftM (InferTable.resolveRow pool (t.resolve pool fuel) r₂)
  if r₁ = r₂ then pure ()
  else match rowVariable r₁, rowVariable r₂ with
    | some v, _ => bindClass fuel v (.row r₂)
    | none, some v => bindClass fuel v (.row r₁)
    | none, none => throw (.mismatch a b)

/-- `unify_lists`, with `unify` for the items. -/
def unifyLists (unify : Ty → Ty → Unifying Unit) (l₁ l₂ : List Ty) (a b : Ty) : Unifying Unit :=
  if l₁.length ≠ l₂.length then throw (.mismatch a b)
  else (l₁.zip l₂).forM fun p => unify p.1 p.2

/-- `unify_context_rows`, with `unify` for the keys. -/
def unifyContextRows (fuel : ℕ) (unify : Ty → Ty → Unifying Unit) (r₁ r₂ : RowData Ty) (a b : Ty) :
    Unifying Unit := do
  let t ← get
  let d₁ ← liftM (InferTable.resolveRow pool (t.resolve pool fuel) r₁)
  let d₂ ← liftM (InferTable.resolveRow pool (t.resolve pool fuel) r₂)
  if d₁.keys.length ≠ d₂.keys.length ∨ d₁.params ≠ d₂.params then throw (.mismatch a b)
  else
    d₁.keys.forM fun k₁ =>
      match traitOf k₁ with
      | none => pure ()
      | some d =>
        match only d₁.keys d, only d₂.keys d with
        | some _, some k₂ => unify k₁ k₂
        | _, _ => pure ()
    let t ← get
    let r₁ ← liftM (InferTable.resolveRow pool (t.resolve pool fuel) r₁)
    let r₂ ← liftM (InferTable.resolveRow pool (t.resolve pool fuel) r₂)
    if r₁ = r₂ then pure () else throw (.mismatch a b)

/-- `unify`, for two function types. -/
def unifyFns (unify : Ty → Ty → Unifying Unit) (p₁ p₂ : List Ty) (r₁ r₂ : Ty) (i₁ i₂ : Inputs)
    (a b : Ty) : Unifying Unit := do
  if i₁ = i₂ then unifyLists unify p₁ p₂ a b
  else if i₁ = .tuple ∨ i₂ = .tuple then
    unify (Pool.inputsTuple p₁ i₁) (Pool.inputsTuple p₂ i₂)
  else throw (.mismatch a b)
  unify r₁ r₂

/-- `unify`, for two types neither of which is a variable or a view. -/
def unifyShapes (fuel : ℕ) (unify : Ty → Ty → Unifying Unit) (a b : Ty) : Unifying Unit :=
  match a, b with
  | .ref x m c, .ref y m' c' =>
    if m = m' ∧ c = c' then unify x y else throw (.mismatch a b)
  | .opaque_ o₁ s₁ _ a₁ b₁, .opaque_ o₂ s₂ _ a₂ b₂ =>
    if o₁ = o₂ ∧ s₁ = s₂ then do
      unifyLists unify a₁ a₂ a b
      unify b₁ b₂
    else throw (.mismatch a b)
  | .adt d₁ a₁, .adt d₂ a₂ =>
    if d₁ = d₂ then unifyLists unify a₁ a₂ a b else throw (.mismatch a b)
  | .tuple e₁ none, .tuple e₂ none => unifyLists unify e₁ e₂ a b
  | .tuple e₁ (some r₁), .tuple e₂ (some r₂) => do
    unifyLists unify e₁ e₂ a b
    unify r₁ r₂
  | .union x, .union y => unifyLists unify x y a b
  | .option x, .option y => unify x y
  | .traitValue d₁ a₁ _, .traitValue d₂ a₂ _ =>
    if d₁ = d₂ then unifyLists unify a₁ a₂ a b else throw (.mismatch a b)
  | .assoc x₁ _ s₁ a₁, .assoc x₂ _ s₂ a₂ =>
    if x₁ = x₂ then do
      unify s₁ s₂
      unifyLists unify a₁ a₂ a b
    else throw (.mismatch a b)
  | .fn p₁ r₁ _ s₁ i₁ d₁, .fn p₂ r₂ _ s₂ i₂ d₂ =>
    if s₁ = s₂ ∧ d₁ = d₂ then unifyFns unify p₁ p₂ r₁ r₂ i₁ i₂ a b else throw (.mismatch a b)
  | .context r₁, .context r₂ => unifyContextRows pool fuel unify r₁ r₂ a b
  | .row r₁, .row r₂ => unifyDataRows pool fuel r₁ r₂ a b
  | _, _ => throw (.mismatch a b)

/-- The arms of `unify`, for two types that differ and that are no bound variables. -/
def unifyArms (fuel : ℕ) (unify : Ty → Ty → Unifying Unit) (a b : Ty) : Unifying Unit :=
  match a, b with
  | .poison, _ => pure ()
  | _, .poison => pure ()
  | .infer x, .mut_ y => do
    if ← isGeneral fuel x then bindClass fuel x b else unify a y
  | .mut_ x, .infer y => do
    if ← isGeneral fuel y then bindClass fuel y a else unify x b
  | .mut_ x, .mut_ y => unify x y
  | .mut_ x, _ => unify x b
  | _, .mut_ y => unify a y
  | .infer x, .infer y => unifyVars fuel x y a b
  | .infer x, _ => bindClass fuel x b
  | _, .infer y => bindClass fuel y a
  | _, _ => unifyShapes pool fuel unify a b

def unify : ℕ → Ty → Ty → Unifying Unit
  | 0, _, _ => liftM (Except.error Halt.fuel : Except Halt Unit)
  | fuel + 1, a, b => do
    let t ← get
    let a ← liftM (t.shallow fuel a)
    let b ← liftM (t.shallow fuel b)
    if a = b then pure () else unifyArms pool fuel (unify fuel) a b

end

end HdLang.Types
