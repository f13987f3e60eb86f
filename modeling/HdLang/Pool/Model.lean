import HdLang.Lib.Numbering
import HdLang.Lib.Outcome
import HdLang.Types.Model

/-!
# The intern pool

`crates/hd_types/src/pool.rs` as far as dependency maps need it: types, lists of types, rows and
dependency maps are items of one index space, and an item keeps its parts as words that do not say
what they mean. The columns are one list of items here, each with its own record; where the run of a
list's items starts in its column is left open.
-/

namespace HdLang.Pool

/-- The index of a type. -/
abbrev Ty := ℕ

/-- The index of a dependency map. -/
abbrev FnDeps := ℕ

/-- `FnDeps::NONE` -/
def FnDeps.none : FnDeps := 2 ^ 32 - 1

inductive PoolTag
  | prim | never | poison | adt | tuple | tupleRest | option | fn | traitValue | opaque_ | param
  | assoc | mut_ | ref | refMut | cRef | cRefMut | infer | canon | list | row | rowTy | context
  | const_ | union | deps
  deriving DecidableEq, Repr

/-- `PoolTag::has_record`: the other tags keep their payload in the item's data word. -/
def PoolTag.hasRecord : PoolTag → Bool
  | .adt | .tupleRest | .fn | .traitValue | .opaque_ | .param | .assoc | .list | .row | .const_
  | .deps => true
  | _ => false

/-- An item's content as the interner sees it. -/
structure Content where
  tag : PoolTag
  data : ℕ
  head : List ℕ
  tys : List Ty
  deriving DecidableEq, Repr

structure Item extends Content where
  flags : ℕ
  deriving DecidableEq, Repr

/-- `Content::matches` -/
def Content.matches_ (c : Content) (it : Item) : Bool :=
  it.tag = c.tag ∧
    if c.tag = .list then it.tys = c.tys
    else if c.tag.hasRecord then it.head = c.head
    else it.data = c.data

/-! ### Meta flags -/

def Flag.hasInfer : ℕ := 1

/-! ### Where the source panics -/

inductive Panic
  /-- An index that no item has. -/
  | missing
  /-- A word of a record that the record does not have. -/
  | slice
  /-- "not a list" -/
  | notAList
  /-- "not a type index" -/
  | notAType
  /-- A word that is out of the range of what it is read as. -/
  | expect
  /-- "an inference variable built outside a body" -/
  | inferVar
  deriving DecidableEq, Repr

/-- The global pool. -/
structure InternPool where
  items : List Item
  /-- Where the run of an item's types starts in the column of types, if the item is a list. -/
  starts : ℕ → ℕ

namespace InternPool

variable (p : InternPool)

/-- `Types::at` -/
def at_ (i : ℕ) : Except Panic Item :=
  match p.items[i]? with
  | some it => pure it
  | none => throw .missing

end InternPool

/-! ### Reading a map -/

/-- `Types::deps_of`: the input and the result lifetimes of a map that `fn_deps` has built. -/
def InternPool.depsOf (p : InternPool) (d : FnDeps) :
    Except Panic (Option (List ℕ × List ℕ)) := do
  if d = FnDeps.none then pure none
  else do
    let it ← p.at_ d
    match it.head with
    | n :: _ :: w => if w.length < n then throw .slice else pure (some (w.take n, w.drop n))
    | _ => throw .slice

/-! ### Building -/

/-- A call of the pool: what it gives and the pool it leaves, or a panic. -/
abbrev Build (α : Type) := StateT InternPool (Except Panic) α

/-- `Types::intern` without a body's pool, then `InternPool::intern`. -/
def intern (c : Content) (flags : ℕ) : Build ℕ := do
  if flags &&& Flag.hasInfer ≠ 0 then throw .inferVar
  else do
    let p ← get
    let (i, items) := Interned.intern p.items c.matches_ ⟨c, flags⟩
    set { p with items := items }
    pure i

/-- The numbers of input lifetimes, by first occurrence, from the `k`-th slot on; a lifetime that no
result has is the slot's own. -/
def inSlots (outs : List ℕ) : ℕ → List ℕ → List ℕ → List ℕ × List ℕ
  | _, seen, [] => (seen, [])
  | k, seen, l :: ins =>
    let l := if l ∈ outs then l else 2 ^ 31 ||| k
    match seen.idxOf? l with
    | some i =>
      let (seen', words) := inSlots outs (k + 1) seen ins
      (seen', (i + 1) :: words)
    | none =>
      let (seen', words) := inSlots outs (k + 1) (seen ++ [l]) ins
      (seen', (seen.length + 1) :: words)

/-- The number of a result's lifetime: 0 when no input has it. -/
def outSlot (seen : List ℕ) (l : ℕ) : ℕ :=
  if l = 0 then 0
  else
    match seen.idxOf? l with
    | some i => i + 1
    | none => 0

def fnDeps (ins outs : List ℕ) : Build FnDeps :=
  if outs.isEmpty then pure FnDeps.none
  else
    let (seen, words) := inSlots outs 0 [] ins
    intern ⟨.deps, 0, ins.length :: outs.length :: (words ++ outs.map (outSlot seen)), []⟩ 0

end HdLang.Pool
