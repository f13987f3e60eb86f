import HdLang.Regexp.Summary

/-!
# The machine of `std.regex`

A Pike machine over the lists of a lowered program: two lists of threads as sparse sets, and the walk
that adds a thread with what it reaches by jumps, splits, saves and assertions. Every read and write of a
list is checked, and so is every subtraction; the loops whose end is not plain from their text are given
turns.
-/

namespace HdLang.Regexp

open Search (Bytes sub)

/-! ### Lists -/

/-- `list[index]` -/
def get {α : Type} (list : List α) (index : ℕ) : Except Stop α :=
  match list[index]? with
  | some a => .ok a
  | none => .error .outOfBounds

/-- `list[index] = value` -/
def put {α : Type} (list : List α) (index : ℕ) (value : α) : Except Stop (List α) :=
  if index < list.length then .ok (list.set index value) else .error .outOfBounds

/-- `usize(n)` -/
def usize (n : ℤ) : Except Stop ℕ := if 0 ≤ n then .ok n.toNat else .error overflow

/-- The loop that copies `count` slots, from `slot` on. -/
def copySlots (source : List ℤ) (sourceBase : ℕ) (target : List ℤ) (targetBase count : ℕ) :
    (slot : ℕ) → Except Stop (List ℤ)
  | slot =>
    if _h : slot < count then do
      let value ← get source (sourceBase + slot)
      let target ← put target (targetBase + slot) value
      copySlots source sourceBase target targetBase count (slot + 1)
    else .ok target
termination_by slot => count - slot

/-- The lists that a search writes. -/
structure Buffers where
  dense : List ℕ
  sparse : List ℕ
  slots : List ℤ
  stack : List ℤ
  values : List ℤ
  scratch : List ℤ

/-! ### The walk -/

/-- `has` -/
def hasThread (b : Buffers) (side count pc : ℕ) : Except Stop Bool := do
  let place ← get b.sparse (side + pc)
  if place < count then return decide ((← get b.dense (side + place)) = pc) else return false

/-- A thread at `pc` at the end of the list of `count` threads. -/
def pushThread (b : Buffers) (side count pc : ℕ) : Except Stop Buffers := do
  let sparse ← put b.sparse (side + pc) count
  let dense ← put b.dense (side + count) pc
  return { b with sparse := sparse, dense := dense }

/-- The slots of the thread at `pc`, from the scratch slots. -/
def saveSlots (b : Buffers) (side slotCount pc : ℕ) : Except Stop Buffers := do
  let slots ← copySlots b.scratch 0 b.slots ((side + pc) * slotCount) slotCount 0
  return { b with slots := slots }

/-- The state of the walk: the lists, the entries on the stack, and the length of the thread list. -/
structure Walk where
  buffers : Buffers
  top : ℕ
  length : ℕ

/-- One turn of the inner loop of `add_thread`, which follows the first choices from `pc`. -/
def followTurn (program : Program) (size slotCount side position : ℕ) (s : Walk × ℕ) :
    Except Stop ((Walk × ℕ) ⊕ Walk) := do
  let (w, pc) := s
  if (← hasThread w.buffers side w.length pc) then return .inr w
  else do
    let b ← pushThread w.buffers side w.length pc
    let length := w.length + 1
    let op ← get program.ops pc
    if op ≤ 4 then return .inr ⟨← saveSlots b side slotCount pc, w.top, length⟩
    else if op = 5 then do
      let stack ← put b.stack w.top ((← get program.right pc) : ℤ)
      return .inl (⟨{ b with stack := stack }, w.top + 1, length⟩, ← get program.left pc)
    else if op = 6 then return .inl (⟨b, w.top, length⟩, ← get program.left pc)
    else if op = 7 then do
      let slot ← get program.left pc
      if slot < slotCount then do
        let stack ← put b.stack w.top (-1 - (slot : ℤ))
        let values ← put b.values w.top (← get b.scratch slot)
        let scratch ← put b.scratch slot (position : ℤ)
        return .inl
          (⟨{ b with stack := stack, values := values, scratch := scratch }, w.top + 1, length⟩,
            pc + 1)
      else return .inl (⟨b, w.top, length⟩, pc + 1)
    else if op = 8 then
      if position ≠ 0 then return .inr ⟨b, w.top, length⟩
      else return .inl (⟨b, w.top, length⟩, pc + 1)
    else
      if position ≠ size then return .inr ⟨b, w.top, length⟩
      else return .inl (⟨b, w.top, length⟩, pc + 1)

/-- One turn of the outer loop of `add_thread`, which takes an entry off the stack. -/
def walkTurn (turns : ℕ) (program : Program) (size slotCount side position : ℕ) (w : Walk) :
    Except Stop (Walk ⊕ Walk) :=
  if w.top > 0 then do
    let top ← sub w.top 1
    let entry ← get w.buffers.stack top
    if entry < 0 then do
      let slot ← usize (-1 - entry)
      let scratch ← put w.buffers.scratch slot (← get w.buffers.values top)
      return .inl ⟨{ w.buffers with scratch := scratch }, top, w.length⟩
    else do
      let pc ← usize entry
      let w ← turning .diverges (followTurn program size slotCount side position) turns
        (⟨w.buffers, top, w.length⟩, pc)
      return .inl w
  else .ok (.inr w)

def addThread (turns : ℕ) (program : Program) (size slotCount : ℕ) (b : Buffers)
    (side count start position : ℕ) : Except Stop (Buffers × ℕ) := do
  let op ← get program.ops start
  if op ≤ 4 then
    -- A thread that waits for a character needs no walk.
    if (← hasThread b side count start) then return (b, count)
    else do
      let b ← pushThread b side count start
      return (← saveSlots b side slotCount start, count + 1)
  else do
    let stack ← put b.stack 0 (start : ℤ)
    let w ← turning .diverges (walkTurn turns program size slotCount side position) turns
      ⟨{ b with stack := stack }, 1, count⟩
    return (w.buffers, w.length)

/-! ### The machine -/

structure Vm where
  program : Program
  text : Bytes
  size : ℕ
  slotCount : ℕ
  buffers : Buffers
  found : List ℤ
  start : ℕ
  lastEnd : ℤ
  finished : Bool
  filter : Prefilter
  filtered : Bool
  hitFrom : ℕ
  hit : ℤ
  nearFrom : ℤ
  nearUntil : ℤ

def newVm (regex : Regex) (text : Bytes) (slotCount : ℕ) : Vm :=
  let width := regex.program.ops.length
  { program := regex.program
    text := text
    size := text.length
    slotCount := slotCount
    buffers :=
      { dense := List.replicate (2 * width) 0
        sparse := List.replicate (2 * width) 0
        slots := List.replicate (2 * width * slotCount) (-1)
        stack := List.replicate (width + 1) (-1)
        values := List.replicate (width + 1) (-1)
        scratch := List.replicate slotCount (-1) }
    found := List.replicate slotCount (-1)
    start := 0
    lastEnd := -1
    finished := false
    filter := regex.filter
    filtered := decide (regex.filter.literal.length > 0) || decide (regex.filter.firsts.length > 0)
    hitFrom := text.length + 1
    hit := -1
    nearFrom := 0
    nearUntil := -1 }

end HdLang.Regexp
