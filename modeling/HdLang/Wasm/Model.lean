import Mathlib.Tactic.Common

/-!
# WebAssembly bodies

The instructions that the linear backend emits, as the passes over them read them: a body is a list
in which `block`, `loop` and `if` open and `end` closes. The passes look inside the constants, the
local and global accesses, part of the `i32` arithmetic, the loads and stores and the control
instructions.
-/

namespace HdLang.Structured

/-- An instruction of a body; `β` is what a block is annotated with, `ι` any other instruction. -/
inductive Token (β ι : Type)
  | block (t : β)
  | loop (t : β)
  | if_ (t : β)
  | else_
  | end_
  | op (i : ι)
  deriving DecidableEq, Repr

end HdLang.Structured

namespace HdLang.Wasm

open Structured

/-- A value type. -/
inductive Val
  | i32
  | i64
  | f32
  | f64
  deriving DecidableEq, Repr

inductive BlockType
  | empty
  | result (t : Val)
  | functionType (index : ℕ)
  deriving DecidableEq, Repr

structure MemArg where
  offset : ℕ
  align : ℕ
  memoryIndex : ℕ
  deriving DecidableEq, Repr

/-- The loads that `with_offset` and `is_load` know. -/
inductive Load
  | i32Load | i64Load | f32Load | f64Load | i32Load8S | i32Load8U | i32Load16S | i32Load16U
  | i64Load8U | i64Load16U | i64Load32U
  deriving DecidableEq, Repr

inductive Store
  | i32Store | i64Store | f32Store | f64Store | i32Store8 | i32Store16 | i64Store8 | i64Store16
  | i64Store32
  deriving DecidableEq, Repr

/-- The operations on one operand that no pass looks inside. -/
inductive Unary
  | f32Abs | f32Ceil | f32ConvertI32S | f32ConvertI32U | f32ConvertI64S | f32ConvertI64U
  | f32DemoteF64 | f32Floor | f32Nearest | f32Neg | f32ReinterpretI32 | f32Sqrt | f32Trunc
  | f64Abs | f64Ceil | f64ConvertI32S | f64ConvertI32U | f64ConvertI64S | f64ConvertI64U
  | f64Floor | f64Nearest | f64Neg | f64PromoteF32 | f64ReinterpretI64 | f64Sqrt | f64Trunc
  | i32Clz | i32Ctz | i32Extend16S | i32Extend8S | i32Popcnt | i32ReinterpretF32 | i32TruncSatF32S
  | i32TruncSatF32U | i32TruncSatF64S | i32TruncSatF64U | i32WrapI64 | i64Clz | i64Ctz | i64Eqz
  | i64ExtendI32S | i64ExtendI32U | i64Popcnt | i64ReinterpretF64 | i64TruncSatF32S
  | i64TruncSatF32U | i64TruncSatF64S | i64TruncSatF64U
  deriving DecidableEq, Repr

/-- The operations on two operands that no pass looks inside. -/
inductive Binary
  | f32Add | f32Copysign | f32Div | f32Eq | f32Ge | f32Gt | f32Le | f32Lt | f32Mul | f32Ne
  | f32Sub | f64Add | f64Copysign | f64Div | f64Eq | f64Ge | f64Gt | f64Le | f64Lt | f64Mul
  | f64Ne | f64Sub | i32DivS | i32GeS | i32GeU | i32GtS | i32GtU | i32LeS | i32LeU | i32LtS
  | i32LtU | i32Or | i32RemS | i32ShrS | i32Xor | i64Add | i64And | i64DivS | i64DivU | i64Eq
  | i64GeS | i64GeU | i64GtS | i64GtU | i64LeS | i64LeU | i64LtS | i64LtU | i64Mul | i64Ne | i64Or
  | i64RemS | i64RemU | i64Shl | i64ShrS | i64ShrU | i64Sub | i64Xor
  deriving DecidableEq, Repr

/-- What the engine runs outside the body. -/
inductive External
  | call (id : ℕ)
  | callIndirect (signature : ℕ)
  | memoryCopy (source target : ℕ)
  | memoryFill (memory : ℕ)
  | memoryGrow (memory : ℕ)
  | memorySize (memory : ℕ)
  deriving DecidableEq, Repr

/-- The `i32` constants that linking resolves. -/
inductive Linked
  | static (address : ℕ)
  | tableSlot (id : ℕ)
  | descriptor (id key : ℕ)
  | weakType (hash : ℕ)
  | weakTypeTable
  | weakTypeCount
  | vtable (k : ℕ)
  deriving DecidableEq, Repr

/-- An instruction other than those that open or close a block. -/
inductive Op
  | br (label : ℕ)
  | brIf (label : ℕ)
  /-- The branch table's other targets, by their place in the function's label lists. -/
  | brTable (targets default : ℕ)
  | ret
  | unreachable
  | drop
  | select
  | localGet (l : ℕ)
  | localSet (l : ℕ)
  | localTee (l : ℕ)
  | globalGet (g : ℕ)
  | globalSet (g : ℕ)
  | i32Const (c : BitVec 32)
  | i64Const (c : BitVec 64)
  | f32Const (bits : BitVec 32)
  | f64Const (bits : BitVec 64)
  | i32Add
  | i32Sub
  | i32Mul
  | i32DivU
  | i32RemU
  | i32And
  | i32Shl
  | i32ShrU
  | i32Eqz
  | i32Eq
  | i32Ne
  | unary (o : Unary)
  | binary (o : Binary)
  | load (kind : Load) (m : MemArg)
  | store (kind : Store) (m : MemArg)
  | external (e : External)
  | linked (l : Linked)
  /-- A suspending body's store of every local into its frame. -/
  | saveAll
  /-- The loads of every local from the frame. -/
  | loadAll
  /-- Marks that write no code. -/
  | anchor (at_ : ℕ)
  | drainGlue (id : ℕ)
  deriving DecidableEq, Repr

abbrev Ins := Token BlockType Op

/-- A function body before numbering. -/
structure Func where
  params : List Val
  results : List Val
  /-- The locals after the parameters. -/
  locals : List Val
  labels : List (List ℕ)
  body : List Ins
  deriving DecidableEq

end HdLang.Wasm
