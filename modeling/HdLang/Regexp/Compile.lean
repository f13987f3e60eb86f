import HdLang.Regexp.Syntax
import HdLang.Search.Model
import Mathlib.Data.Int.Notation
import Mathlib.Logic.Function.Iterate

/-!
# Compiling patterns

The instructions of a pattern (`compile`), the size that the limit tests (`program_size`), and the
lists that the machine reads (`lower`).
-/

namespace HdLang.Regexp

open Search (sub)

/-! ### Classes -/

/-- `push_ranges` for a negated set, from the gap that starts at `low`. -/
def gapsFrom (low : ℤ) : List ℤ → List ℤ
  | first :: last :: set =>
    (if first > low then [low, first - 1] else []) ++ gapsFrom (last + 1) set
  | _ => [low, 1114111]

def pushRanges (set : List ℤ) (negated : Bool) : List ℤ :=
  if negated then gapsFrom 0 set else set

/-- The ASCII digits. -/
def digitSet : List ℤ := [48, 57]

/-- The ASCII letters, digits and `_`. -/
def wordSet : List ℤ := [48, 57, 65, 90, 95, 95, 97, 122]

/-- The white space of Unicode. -/
def spaceSet : List ℤ :=
  [9, 13, 32, 32, 133, 133, 160, 160, 5760, 5760, 8192, 8202, 8232, 8233, 8239, 8239, 8287, 8287,
    12288, 12288]

/-- The ranges of one item. -/
def itemRanges : ClassItem → List ℤ
  | .range low high => [low.toNat, high.toNat]
  | .digit negated => pushRanges digitSet negated
  | .word negated => pushRanges wordSet negated
  | .space negated => pushRanges spaceSet negated

def classRanges (items : List ClassItem) : List ℤ := items.flatMap itemRanges

/-! ### The size -/

def capped (size : ℕ) : ℕ := if size > maxProgram then maxProgram + 1 else size

def scaled (size count : ℕ) : ℕ :=
  if count = 0 then 0
  else if size > maxProgram / count then maxProgram + 1
  else size * count

mutual

def programSize : Node → Except Stop ℕ
  | .empty => .ok 0
  | .group body _ => programSize body
  | .concat items => concatSize 0 items
  | .alternate branches => do sub (← alternateSize 0 branches) 2
  | .repeat body min max _ => do
    let size ← programSize body
    match max with
    | none =>
      if min = 0 then return capped (size + 2)
      else return capped (scaled size min + 1)
    | some high => return capped (scaled size min + scaled (size + 1) (← sub high min))
  | .literal _ => .ok 1
  | .anyChar => .ok 1
  | .class _ _ => .ok 1
  | .begin => .ok 1
  | .end => .ok 1

/-- The loop of `program_size` over the items of a sequence. -/
def concatSize (total : ℕ) : List Node → Except Stop ℕ
  | [] => .ok total
  | item :: items => do concatSize (capped (total + (← programSize item))) items

/-- The loop of `program_size` over alternatives. -/
def alternateSize (total : ℕ) : List Node → Except Stop ℕ
  | [] => .ok total
  | branch :: branches => do alternateSize (capped (total + (← programSize branch) + 2)) branches

end

/-! ### The instructions -/

inductive Inst
  | char (point : ℤ)
  | anyChar
  | class (ranges : List ℤ) (negated : Bool)
  | begin
  | end
  | split (first second : ℕ)
  | jump (target : ℕ)
  | save (slot : ℕ)
  | done
  deriving DecidableEq, Repr

def choice (body out : ℕ) (greedy : Bool) : Inst :=
  if greedy then .split body out else .split out body

mutual

/-- `compile`: the program with the instructions of the node after it. -/
def compile : Node → List Inst → List Inst
  | .empty, program => program
  | .literal value, program => program ++ [.char value.toNat]
  | .anyChar, program => program ++ [.anyChar]
  | .class items negated, program => program ++ [.class (classRanges items) negated]
  | .begin, program => program ++ [.begin]
  | .end, program => program ++ [.end]
  | .group body index, program =>
    compile body (program ++ [.save (2 * index)]) ++ [.save (2 * index + 1)]
  | .concat items, program => compileConcat items program
  | .alternate branches, program =>
    let (program, jumps) := compileAlternate branches program []
    jumps.foldl (fun program jump => program.set jump (.jump program.length)) program
  | .repeat body min none greedy, program =>
    if min = 0 then
      -- loop: split body, out; body; jump loop
      let start := program.length
      let program := compile body (program ++ [.split 0 0]) ++ [.jump start]
      program.set start (choice (start + 1) program.length greedy)
    else
      -- last: body; split last, out
      let program := (compile body)^[min - 1] program
      let last := program.length
      let program := compile body program
      program ++ [choice last (program.length + 1) greedy]
  | .repeat body min (some high) greedy, program =>
    let program := (compile body)^[min] program
    -- each optional copy: split body, out
    let (program, splits) := (fun s : List Inst × List ℕ =>
      (compile body (s.1 ++ [.split 0 0]), s.2 ++ [s.1.length]))^[high - min] (program, [])
    splits.foldl (fun program split => program.set split (choice (split + 1) program.length greedy))
      program

/-- The items of a sequence. -/
def compileConcat : List Node → List Inst → List Inst
  | [], program => program
  | item :: items, program => compileConcat items (compile item program)

/-- The alternatives, with the places of the jumps to their end. -/
def compileAlternate : List Node → List Inst → List ℕ → List Inst × List ℕ
  | [], program, jumps => (program, jumps)
  | [branch], program, jumps => (compile branch program, jumps)
  | branch :: next :: branches, program, jumps =>
    -- split L1, next; L1: a; jump end
    let split := program.length
    let program := compile branch (program ++ [.split (split + 1) 0])
    let jumps := jumps ++ [program.length]
    let program := program ++ [.jump 0]
    compileAlternate (next :: branches) (program.set split (.split (split + 1) program.length)) jumps

end

/-! ### The machine's program -/

structure Program where
  ops : List ℤ
  left : List ℕ
  right : List ℕ
  points : List ℤ
  ranges : List ℤ

/-- The entries of one instruction, after the ranges so far. -/
def lowerInst (program : Program) : Inst → Program
  | .char point => ⟨program.ops ++ [0], program.left ++ [0], program.right ++ [0],
      program.points ++ [point], program.ranges⟩
  | .anyChar => ⟨program.ops ++ [1], program.left ++ [0], program.right ++ [0],
      program.points ++ [0], program.ranges⟩
  | .class ranges negated => ⟨program.ops ++ [if negated then 3 else 2],
      program.left ++ [program.ranges.length],
      program.right ++ [program.ranges.length + ranges.length], program.points ++ [0],
      program.ranges ++ ranges⟩
  | .done => ⟨program.ops ++ [4], program.left ++ [0], program.right ++ [0], program.points ++ [0],
      program.ranges⟩
  | .split first second => ⟨program.ops ++ [5], program.left ++ [first], program.right ++ [second],
      program.points ++ [0], program.ranges⟩
  | .jump target => ⟨program.ops ++ [6], program.left ++ [target], program.right ++ [0],
      program.points ++ [0], program.ranges⟩
  | .save slot => ⟨program.ops ++ [7], program.left ++ [slot], program.right ++ [0],
      program.points ++ [0], program.ranges⟩
  | .begin => ⟨program.ops ++ [8], program.left ++ [0], program.right ++ [0], program.points ++ [0],
      program.ranges⟩
  | .end => ⟨program.ops ++ [9], program.left ++ [0], program.right ++ [0], program.points ++ [0],
      program.ranges⟩

def lower (program : List Inst) : Program := program.foldl lowerInst ⟨[], [], [], [], []⟩

end HdLang.Regexp
