import HdLang.Lib.SortedMap
import Mathlib.Logic.Equiv.List

/-!
# Types

`crates/hd_types/src/pool.rs`. The pools hold each type, list and row once, so an index is one content
and the source compares indices where it compares contents. A type is modelled by its content, with
the contents of its parts in it: `Types::get` is then a match and `Types::intern_ty` what it changes
about a type before it looks it up. The order of the indices is left open (`Pool.index`), as it is
the order in which the program happened to build its types.
-/

namespace HdLang.Types

open List Nat

/-- An item of the program. -/
abbrev DefId := ℕ

inductive Prim
  | i8 | i16 | i32 | i64 | u8 | u16 | u32 | u64 | usize | f32 | f64 | bool | char | string
  deriving DecidableEq, Repr

def Prim.isInteger : Prim → Bool
  | .f32 | .f64 | .bool | .char | .string => false
  | _ => true

def Prim.isFloat : Prim → Bool
  | .f32 | .f64 => true
  | _ => false

/-- A declared type parameter, or a declared row parameter. -/
@[ext] structure ParamRef where
  owner : DefId
  index : ℕ
  deriving DecidableEq, Repr

/-- An evaluated const argument. -/
inductive ConstValue
  | int (prim : Prim) (bits : UInt64)
  | bool (b : Bool)
  | char (c : Char)
  /-- A string, as its path. -/
  | str (path : ℕ)
  deriving DecidableEq, Repr

/-- A row: its keys and declared row parameters. -/
@[ext] structure RowData (τ : Type) where
  keys : List τ
  params : List ParamRef
  deriving DecidableEq, Repr

/-- How a function type's `params` spell its inputs tuple. -/
inductive Inputs
  | fixed
  | rest
  | tuple
  deriving DecidableEq, Repr

/-- A function type's dependency map: the lifetimes of its input and of its result slots, or none. -/
abbrev FnDeps := Option (List ℕ × List ℕ)

/-- `TyData`, with types where the source has indices of them. -/
inductive Ty
  | prim (p : Prim)
  | never
  | poison
  | adt (def_ : DefId) (args : List Ty)
  | tuple (elems : List Ty) (rest : Option Ty)
  | union (members : List Ty)
  | option (inner : Ty)
  | fn (params : List Ty) (result : Ty) (row : RowData Ty) (suspends : Bool) (inputs : Inputs)
      (deps : FnDeps)
  | traitValue (def_ : DefId) (args : List Ty) (bindings : List (DefId × Ty))
  | opaque_ (owner : DefId) (site : ℕ) (borrows : Bool) (args : List Ty) (bound : Ty)
  | param (p : ParamRef)
  | const_ (value : ConstValue)
  | assoc (assoc trait_ : DefId) (selfTy : Ty) (args : List Ty)
  | mut_ (inner : Ty)
  | ref (inner : Ty) (mutable counted : Bool)
  | infer (v : ℕ)
  | canon (i : ℕ)
  | row (r : RowData Ty)
  | context (r : RowData Ty)

/-! ### Equality

Types can be told apart by numbers: there are pools, and whether two types are equal is decided. -/

open Encodable

/-- A number for a const argument. -/
def ConstValue.code : ConstValue → ℕ
  | .int prim bits => Nat.pair 0 (Nat.pair prim.ctorIdx bits.toNat)
  | .bool b => Nat.pair 1 (encode b)
  | .char c => Nat.pair 2 c.toNat
  | .str path => Nat.pair 3 path

/-- A number for a list of declared parameters. -/
def codeParams (ps : List ParamRef) : ℕ := encode (ps.map fun p => (p.owner, p.index))

theorem rowData_ext {keys : List Ty} {ps : List ParamRef} {r : RowData Ty} (hkeys : keys = r.keys)
    (hps : ps = r.params) : RowData.mk keys ps = r := RowData.ext hkeys hps

theorem Prim.ctorIdx_inj {p q : Prim} (h : p.ctorIdx = q.ctorIdx) : p = q := by
  cases p <;> cases q <;> first | rfl | cases h

theorem ConstValue.code_inj {v w : ConstValue} (h : v.code = w.code) : v = w := by
  cases v with
  | int p b =>
    cases w with
    | int q c =>
      simp only [code, pair_eq_pair, true_and] at h
      rw [Prim.ctorIdx_inj h.1, UInt64.toNat_inj.mp h.2]
    | _ => simp [code, pair_eq_pair] at h
  | bool b =>
    cases w with
    | bool c =>
      simp only [code, pair_eq_pair, true_and] at h
      rw [encode_injective h]
    | _ => simp [code, pair_eq_pair] at h
  | char c =>
    cases w with
    | char d =>
      simp only [code, pair_eq_pair, true_and] at h
      rw [Char.toNat_inj.mp h]
    | _ => simp [code, pair_eq_pair] at h
  | str p =>
    cases w with
    | str q =>
      simp only [code, pair_eq_pair, true_and] at h
      rw [h]
    | _ => simp [code, pair_eq_pair] at h

theorem codeParams_inj {ps qs : List ParamRef} (h : codeParams ps = codeParams qs) : ps = qs := by
  refine map_injective_iff.mpr (fun p q hpq => ?_) (encode_injective h)
  exact ParamRef.ext (Prod.mk.inj hpq).1 (Prod.mk.inj hpq).2

namespace Ty

mutual

/-- A number for a type. -/
def code : Ty → ℕ
  | .prim p => Nat.pair 0 p.ctorIdx
  | .never => Nat.pair 1 0
  | .poison => Nat.pair 2 0
  | .adt d args => Nat.pair 3 (Nat.pair d (codeList args))
  | .tuple elems rest =>
    Nat.pair 4 (Nat.pair (codeList elems) (codeRest rest))
  | .union members => Nat.pair 6 (codeList members)
  | .option i => Nat.pair 7 (code i)
  | .fn params result ⟨keys, ps⟩ suspends inputs deps =>
    Nat.pair 8 (Nat.pair (codeList params) (Nat.pair (code result) (Nat.pair (codeList keys)
      (Nat.pair (codeParams ps) (Nat.pair (encode suspends) (Nat.pair inputs.ctorIdx
        (encode deps)))))))
  | .traitValue d args bindings =>
    Nat.pair 9 (Nat.pair d (Nat.pair (codeList args) (codeBindings bindings)))
  | .opaque_ owner site borrows args bound =>
    Nat.pair 10 (Nat.pair owner (Nat.pair site (Nat.pair (encode borrows)
      (Nat.pair (codeList args) (code bound)))))
  | .param p => Nat.pair 11 (Nat.pair p.owner p.index)
  | .const_ v => Nat.pair 12 v.code
  | .assoc a t self args =>
    Nat.pair 13 (Nat.pair a (Nat.pair t (Nat.pair (code self) (codeList args))))
  | .mut_ i => Nat.pair 14 (code i)
  | .ref i m c => Nat.pair 15 (Nat.pair (code i) (Nat.pair (encode m) (encode c)))
  | .infer v => Nat.pair 16 v
  | .canon i => Nat.pair 17 i
  | .row ⟨keys, ps⟩ => Nat.pair 18 (Nat.pair (codeList keys) (codeParams ps))
  | .context ⟨keys, ps⟩ => Nat.pair 19 (Nat.pair (codeList keys) (codeParams ps))
termination_by structural t => t

def codeList : List Ty → ℕ
  | [] => 0
  | t :: ts => Nat.pair (code t) (codeList ts) + 1
termination_by structural ts => ts

def codeRest : Option Ty → ℕ
  | none => 0
  | some r => code r + 1
termination_by structural r => r

def codeBindings : List (DefId × Ty) → ℕ
  | [] => 0
  | (d, t) :: ts => Nat.pair d (Nat.pair (code t) (codeBindings ts)) + 1
termination_by structural ts => ts

end

mutual

theorem code_inj {t u : Ty} (h : code t = code u) : t = u := by
  cases t with
  | prim p =>
    cases u with
    | prim q =>
      simp only [code, pair_eq_pair, true_and] at h
      rw [Prim.ctorIdx_inj h]
    | _ => simp [code, pair_eq_pair] at h
  | tuple elems rest =>
    cases u with
    | tuple elems' rest' =>
      simp only [code, pair_eq_pair, true_and] at h
      rw [codeList_inj h.1, codeRest_inj h.2]
    | _ => simp [code, pair_eq_pair] at h
  | fn params result r suspends inputs deps =>
    cases r with
    | mk keys ps =>
      cases u with
      | fn params' result' r' suspends' inputs' deps' =>
        simp only [code, pair_eq_pair, true_and] at h
        obtain ⟨hparams, hresult, hkeys, hps, hsuspends, hinputs, hdeps⟩ := h
        have hinputs : inputs = inputs' := by
          cases inputs <;> cases inputs' <;> first | rfl | cases hinputs
        rw [codeList_inj hparams, code_inj hresult, rowData_ext (codeList_inj hkeys) (codeParams_inj hps), encode_injective hsuspends, hinputs,
          encode_injective hdeps]
      | _ => simp [code, pair_eq_pair] at h
  | row r =>
    cases r with
    | mk keys ps =>
      cases u with
      | row r' =>
        simp only [code, pair_eq_pair, true_and] at h
        rw [rowData_ext (codeList_inj h.1) (codeParams_inj h.2)]
      | _ => simp [code, pair_eq_pair] at h
  | context r =>
    cases r with
    | mk keys ps =>
      cases u with
      | context r' =>
        simp only [code, pair_eq_pair, true_and] at h
        rw [rowData_ext (codeList_inj h.1) (codeParams_inj h.2)]
      | _ => simp [code, pair_eq_pair] at h
  | adt d args =>
    cases u with
    | adt e args' =>
      simp only [code, pair_eq_pair, true_and] at h
      rw [h.1, codeList_inj h.2]
    | _ => simp [code, pair_eq_pair] at h
  | union members =>
    cases u with
    | union members' =>
      simp only [code, pair_eq_pair, true_and] at h
      rw [codeList_inj h]
    | _ => simp [code, pair_eq_pair] at h
  | option i =>
    cases u with
    | option j =>
      simp only [code, pair_eq_pair, true_and] at h
      rw [code_inj h]
    | _ => simp [code, pair_eq_pair] at h
  | traitValue d args bindings =>
    cases u with
    | traitValue e args' bindings' =>
      simp only [code, pair_eq_pair, true_and] at h
      rw [h.1, codeList_inj h.2.1, codeBindings_inj h.2.2]
    | _ => simp [code, pair_eq_pair] at h
  | opaque_ owner site borrows args bound =>
    cases u with
    | opaque_ owner' site' borrows' args' bound' =>
      simp only [code, pair_eq_pair, true_and] at h
      obtain ⟨howner, hsite, hborrows, hargs, hbound⟩ := h
      rw [howner, hsite, encode_injective hborrows, codeList_inj hargs, code_inj hbound]
    | _ => simp [code, pair_eq_pair] at h
  | param p =>
    cases u with
    | param q =>
      simp only [code, pair_eq_pair, true_and] at h
      rw [ParamRef.ext h.1 h.2]
    | _ => simp [code, pair_eq_pair] at h
  | const_ v =>
    cases u with
    | const_ w =>
      simp only [code, pair_eq_pair, true_and] at h
      rw [ConstValue.code_inj h]
    | _ => simp [code, pair_eq_pair] at h
  | assoc a t self args =>
    cases u with
    | assoc a' t' self' args' =>
      simp only [code, pair_eq_pair, true_and] at h
      obtain ⟨ha, ht, hself, hargs⟩ := h
      rw [ha, ht, code_inj hself, codeList_inj hargs]
    | _ => simp [code, pair_eq_pair] at h
  | mut_ i =>
    cases u with
    | mut_ j =>
      simp only [code, pair_eq_pair, true_and] at h
      rw [code_inj h]
    | _ => simp [code, pair_eq_pair] at h
  | ref i m c =>
    cases u with
    | ref j m' c' =>
      simp only [code, pair_eq_pair, true_and] at h
      rw [code_inj h.1, encode_injective h.2.1, encode_injective h.2.2]
    | _ => simp [code, pair_eq_pair] at h
  | infer v =>
    cases u with
    | infer w =>
      simp only [code, pair_eq_pair, true_and] at h
      rw [h]
    | _ => simp [code, pair_eq_pair] at h
  | canon i =>
    cases u with
    | canon j =>
      simp only [code, pair_eq_pair, true_and] at h
      rw [h]
    | _ => simp [code, pair_eq_pair] at h
  | never =>
    cases u with
    | never => rfl
    | _ => simp [code, pair_eq_pair] at h
  | poison =>
    cases u with
    | poison => rfl
    | _ => simp [code, pair_eq_pair] at h
termination_by structural t

theorem codeList_inj {ts us : List Ty} (h : codeList ts = codeList us) : ts = us := by
  cases ts with
  | nil =>
    cases us with
    | nil => rfl
    | cons u us => exact absurd h.symm (succ_ne_zero _)
  | cons t ts =>
    cases us with
    | nil => exact absurd h (succ_ne_zero _)
    | cons u us =>
      simp only [codeList, Nat.add_right_cancel_iff, pair_eq_pair] at h
      rw [code_inj h.1, codeList_inj h.2]
termination_by structural ts

theorem codeRest_inj {r r' : Option Ty} (h : codeRest r = codeRest r') : r = r' := by
  cases r with
  | none =>
    cases r' with
    | none => rfl
    | some t => exact absurd h.symm (succ_ne_zero _)
  | some t =>
    cases r' with
    | none => exact absurd h (succ_ne_zero _)
    | some t' => rw [code_inj (Nat.succ.inj h)]
termination_by structural r

theorem codeBindings_inj {ts us : List (DefId × Ty)} (h : codeBindings ts = codeBindings us) :
    ts = us := by
  cases ts with
  | nil =>
    cases us with
    | nil => rfl
    | cons u us => exact absurd h.symm (succ_ne_zero _)
  | cons t ts =>
    cases t with
    | mk d t =>
      cases us with
      | nil => exact absurd h (succ_ne_zero _)
      | cons u us =>
        simp only [codeBindings, Nat.add_right_cancel_iff, pair_eq_pair] at h
        rw [h.1, code_inj h.2.1, codeBindings_inj h.2.2]
termination_by structural ts

end

instance : DecidableEq Ty := fun _ _ => decidable_of_iff _ ⟨code_inj, congrArg code⟩

/-! ### Parts -/

/-- The types that a type is made of. -/
@[simp] def children : Ty → List Ty
  | .adt _ args => args
  | .tuple elems rest => elems ++ rest.toList
  | .union members => members
  | .option inner => [inner]
  | .fn params result r _ _ _ => params ++ result :: r.keys
  | .traitValue _ args bindings => args ++ bindings.map Prod.snd
  | .opaque_ _ _ _ args bound => bound :: args
  | .assoc _ _ selfTy args => selfTy :: args
  | .mut_ inner => [inner]
  | .ref inner _ _ => [inner]
  | .row r => r.keys
  | .context r => r.keys
  | _ => []

mutual

/-- A type and every type in it. -/
def parts : Ty → List Ty
  | .adt d args => .adt d args :: partsList args
  | .tuple elems none => .tuple elems none :: partsList elems
  | .tuple elems (some r) => .tuple elems (some r) :: (partsList elems ++ parts r)
  | .union members => .union members :: partsList members
  | .option inner => .option inner :: parts inner
  | .fn params result ⟨keys, ps⟩ suspends inputs deps =>
    .fn params result ⟨keys, ps⟩ suspends inputs deps ::
      (partsList params ++ (parts result ++ partsList keys))
  | .traitValue d args bindings =>
    .traitValue d args bindings :: (partsList args ++ partsBindings bindings)
  | .opaque_ owner site borrows args bound =>
    .opaque_ owner site borrows args bound :: (parts bound ++ partsList args)
  | .assoc a t selfTy args => .assoc a t selfTy args :: (parts selfTy ++ partsList args)
  | .mut_ inner => .mut_ inner :: parts inner
  | .ref inner mutable counted => .ref inner mutable counted :: parts inner
  | .row ⟨keys, ps⟩ => .row ⟨keys, ps⟩ :: partsList keys
  | .context ⟨keys, ps⟩ => .context ⟨keys, ps⟩ :: partsList keys
  | t => [t]
termination_by structural t => t

def partsList : List Ty → List Ty
  | [] => []
  | t :: ts => parts t ++ partsList ts
termination_by structural ts => ts

def partsBindings : List (DefId × Ty) → List Ty
  | [] => []
  | (_, t) :: ts => parts t ++ partsBindings ts
termination_by structural ts => ts

end

theorem partsList_eq (ts : List Ty) : partsList ts = ts.flatMap parts := by
  induction ts with
  | nil => rfl
  | cons t ts ih => rw [partsList, ih, flatMap_cons]

theorem partsBindings_eq (ts : List (DefId × Ty)) :
    partsBindings ts = (ts.map Prod.snd).flatMap parts := by
  induction ts with
  | nil => rfl
  | cons p ts ih => rw [partsBindings, ih, map_cons, flatMap_cons]

theorem parts_eq (t : Ty) : t.parts = t :: t.children.flatMap parts := by
  cases t with
  | tuple elems rest => cases rest <;> simp [parts, partsList_eq]
  | _ => simp [parts, partsList_eq, partsBindings_eq]

theorem mem_parts (t : Ty) : t ∈ t.parts := by
  rw [parts_eq]
  exact mem_cons_self

theorem sizeOf_lt_of_mem_children {t c : Ty} (hc : c ∈ t.children) : sizeOf c < sizeOf t := by
  have hlist : ∀ {ts : List Ty}, c ∈ ts → sizeOf c < sizeOf ts := sizeOf_lt_of_mem
  cases t with
  | tuple elems rest =>
    cases rest with
    | none =>
      rw [children, Option.toList_none, append_nil] at hc
      have := hlist hc
      simp only [tuple.sizeOf_spec]
      omega
    | some r =>
      rw [children, Option.toList_some, mem_append, mem_singleton] at hc
      simp only [tuple.sizeOf_spec, Option.some.sizeOf_spec]
      obtain hc | rfl := hc
      · have := hlist hc
        omega
      · omega
  | fn params result r suspends inputs deps =>
    rw [children, mem_append, mem_cons] at hc
    simp only [fn.sizeOf_spec]
    have hrow : sizeOf r = 1 + sizeOf r.keys + sizeOf r.params := rfl
    obtain hc | rfl | hc := hc
    · have := hlist hc
      omega
    · omega
    · have := hlist hc
      omega
  | traitValue d args bindings =>
    rw [children, mem_append, mem_map] at hc
    simp only [traitValue.sizeOf_spec]
    obtain hc | ⟨⟨e, u⟩, hu, rfl⟩ := hc
    · have := hlist hc
      omega
    · have := sizeOf_lt_of_mem hu
      simp only [Prod.mk.sizeOf_spec] at this ⊢
      omega
  | row r =>
    rw [children] at hc
    have := hlist hc
    have hrow : sizeOf r = 1 + sizeOf r.keys + sizeOf r.params := rfl
    simp only [row.sizeOf_spec]
    omega
  | context r =>
    rw [children] at hc
    have := hlist hc
    have hrow : sizeOf r = 1 + sizeOf r.keys + sizeOf r.params := rfl
    simp only [context.sizeOf_spec]
    omega
  | adt d args =>
    rw [children] at hc
    have := hlist hc
    simp only [adt.sizeOf_spec]
    omega
  | union members =>
    rw [children] at hc
    have := hlist hc
    simp only [union.sizeOf_spec]
    omega
  | opaque_ owner site borrows args bound =>
    rw [children, mem_cons] at hc
    simp only [opaque_.sizeOf_spec]
    obtain rfl | hc := hc
    · omega
    · have := hlist hc
      omega
  | assoc a t selfTy args =>
    rw [children, mem_cons] at hc
    simp only [assoc.sizeOf_spec]
    obtain rfl | hc := hc
    · omega
    · have := hlist hc
      omega
  | option inner =>
    obtain rfl := mem_singleton.mp hc
    simp
  | mut_ inner =>
    obtain rfl := mem_singleton.mp hc
    simp
  | ref inner mutable counted =>
    obtain rfl := mem_singleton.mp hc
    simp only [ref.sizeOf_spec]
    omega
  | _ => exact absurd hc not_mem_nil

/-- **Induction over types**: what a type has when all it is made of has it, every type has. -/
theorem induct {P : Ty → Prop} (h : ∀ t, (∀ c ∈ t.children, P c) → P t) (t : Ty) : P t :=
  h t fun c _ => induct h c
termination_by sizeOf t
decreasing_by exact sizeOf_lt_of_mem_children ‹_›

/-! ### Flags -/

/-- Whether a type is an inference variable. -/
def isInfer : Ty → Bool
  | .infer _ => true
  | _ => false

def hasInfer (t : Ty) : Bool := t.parts.any isInfer

end Ty

/-! ### Building types -/

/-- The pools: each content has one index. -/
structure Pool where
  index : Ty → ℕ
  injective : Function.Injective index

/-- A pool in which the numbers of the types are their indices. -/
def Pool.numbered : Pool := ⟨Ty.code, fun _ _ => Ty.code_inj⟩

namespace Pool

/-- The order of a row's declared parameters. -/
def paramLe (p q : ParamRef) : Prop := p.owner < q.owner ∨ p.owner = q.owner ∧ p.index ≤ q.index

instance : DecidableRel paramLe := fun _ _ => inferInstanceAs (Decidable (_ ∨ _))

/-- The keys that a key stands for: a key that is itself a row stands for that row's. -/
def keysOf : Ty → List Ty
  | .row r => r.keys
  | k => [k]

/-- The declared parameters that come with a key. -/
def paramsOf : Ty → List ParamRef
  | .row r => r.params
  | _ => []

/-- The order of a row's keys. -/
def keyLe (pool : Pool) (k l : Ty) : Prop := pool.index k ≤ pool.index l

instance (pool : Pool) : DecidableRel pool.keyLe := fun _ _ => inferInstanceAs (Decidable (_ ≤ _))

/-- `Types::row`: both parts are sorted and cleared of repeats. -/
def row (pool : Pool) (r : RowData Ty) : RowData Ty where
  keys := SortedSet.ofList pool.keyLe (r.keys.flatMap keysOf)
  params := SortedSet.ofList paramLe (r.params ++ r.keys.flatMap paramsOf)

/-- `Types::intern_ty`. A function type whose inputs tuple is a tuple type takes its
one-parameter-per-element form. -/
def internTy : Ty → Ty
  | .fn [.tuple elems none] result row suspends .tuple deps =>
    .fn elems result row suspends .fixed deps
  | .fn [.tuple elems (some r)] result row suspends .tuple deps =>
    .fn (elems ++ [r]) result row suspends .rest deps
  | .traitValue d args bindings =>
    .traitValue d args (bindings.insertionSort (·.1 ≤ ·.1))
  | t => t

def inputsTuple (params : List Ty) (inputs : Inputs) : Ty :=
  match inputs, params, params.getLast? with
  | .tuple, [one], _ => one
  | .rest, params, some last => .tuple params.dropLast (some last)
  | _, params, _ => .tuple params none

end Pool
end HdLang.Types
