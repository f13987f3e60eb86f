import HdLang.Lib.Outcome
import Mathlib.Algebra.Group.Nat.Defs
import Mathlib.Data.Nat.Size

/-!
# Sorting lists

The stable sort of `lib/std/collections.hd`: natural runs, runs that are left unsorted until they
are merged, a merge tree in powersort order, a three-way quicksort, a merge sort where that goes too
deep, and insertion sorts. The elements are moved between the list's room and a scratch room. A
place of a room holds a value or none, and a read moves the value out. It is a fault to read a place
that holds none or is not of the room, and to write over a value, so a sort without a fault keeps
every value once. The comparison is any function, and may answer as its own state says.
-/

namespace HdLang.Drift

/-- What a sort must never do. -/
inductive Fault
  /-- Reading a place without a value. -/
  | read
  /-- Writing over a value, or past the room. -/
  | write
  /-- More turns of the main loop than the list has elements. -/
  | stuck
  deriving DecidableEq, Repr

/-- The rooms of a sort: the list's, the scratch room and the one of the classes. -/
@[ext] structure Rooms (α σ : Type) where
  items : List (Option α)
  scratch : List (Option α)
  classes : List (Option ℕ)
  /-- The state of the comparison. -/
  env : σ

variable {α σ : Type}

/-- A part of a sort. -/
abbrev Sort_ (α σ : Type) := StateT (Rooms α σ) (Except Fault)

/-- A comparison, with its own state. -/
abbrev By (α σ : Type) := α → α → σ → Ordering × σ

/-! ### Places -/

/-- `items.at(i).as_ref()` -/
def look (i : ℕ) : Sort_ α σ α := do
  match (← get).items[i]? with
  | some (some x) => pure x
  | _ => throw .read

/-- `items.at(i).read()` -/
def take (i : ℕ) : Sort_ α σ α := do
  match (← get).items[i]? with
  | some (some x) => do
    modify fun s => { s with items := s.items.set i none }
    pure x
  | _ => throw .read

/-- `items.at(i).write(x)` -/
def put (i : ℕ) (x : α) : Sort_ α σ PUnit := do
  match (← get).items[i]? with
  | some none => modify fun s => { s with items := s.items.set i (some x) }
  | _ => throw .write

/-- `scratch.at(i).read()` -/
def takeScratch (i : ℕ) : Sort_ α σ α := do
  match (← get).scratch[i]? with
  | some (some x) => do
    modify fun s => { s with scratch := s.scratch.set i none }
    pure x
  | _ => throw .read

/-- `scratch.at(i).write(x)` -/
def putScratch (i : ℕ) (x : α) : Sort_ α σ PUnit := do
  match (← get).scratch[i]? with
  | some none => modify fun s => { s with scratch := s.scratch.set i (some x) }
  | _ => throw .write

/-- `classes.at(i).read()` -/
def classAt (i : ℕ) : Sort_ α σ ℕ := do
  match (← get).classes[i]? with
  | some (some c) => pure c
  | _ => throw .read

/-- `classes.at(i).write(c)`: a byte is no value that could be lost. -/
def putClass (i c : ℕ) : Sort_ α σ PUnit := do
  if i < (← get).classes.length then
    modify fun s => { s with classes := s.classes.set i (some c) }
  else throw .write

section

variable (by_ : By α σ)

/-- A call of the comparison. -/
def compare (a b : α) : Sort_ α σ Ordering := do
  let (o, env) := by_ a b (← get).env
  modify fun s => { s with env := env }
  pure o

/-- `by(items.at(left).as_ref(), items.at(right).as_ref())` -/
def compareAt (left right : ℕ) : Sort_ α σ Ordering := do
  let a ← look left
  let b ← look right
  compare by_ a b

def driftLess (left right : ℕ) : Sort_ α σ Bool := do
  let o ← compareAt by_ left right
  pure (o == .lt)

/-! ### Insertion sort -/

/-- `while hole > start && drift_less(items, by, index, hole - 1): hole -= 1` -/
def findHole (start index : ℕ) : ℕ → Sort_ α σ ℕ
  | 0 => pure 0
  | hole + 1 =>
    if start < hole + 1 then do
      let less ← driftLess by_ index hole
      if less then findHole start index hole else pure (hole + 1)
    else pure (hole + 1)

/-- `while at > hole: items.at(at).write(items.at(at - 1).read()); at -= 1` -/
def shift (hole : ℕ) : ℕ → Sort_ α σ PUnit
  | 0 => pure ⟨⟩
  | at_ + 1 =>
    if hole < at_ + 1 then do
      let x ← take at_
      put (at_ + 1) x
      shift hole at_
    else pure ⟨⟩

/-- One turn of `drift_insertion_sort`. -/
def insertAt (start index : ℕ) : Sort_ α σ PUnit := do
  let hole ← findHole by_ start index index
  if hole ≠ index then do
    let value ← take index
    shift hole index
    put hole value
  else pure ⟨⟩

/-- The loop of `drift_insertion_sort`. -/
def insertFrom (start end_ index : ℕ) : Sort_ α σ PUnit :=
  if index < end_ then do
    insertAt by_ start index
    insertFrom start end_ (index + 1)
  else pure ⟨⟩
termination_by end_ - index

def driftInsertionSort (start end_ : ℕ) : Sort_ α σ PUnit := insertFrom by_ start end_ (start + 1)

/-! ### Natural runs -/

/-- `drift_reverse`, from the loop's `left` and `right`. -/
def driftReverse (left right : ℕ) : Sort_ α σ PUnit :=
  if left + 1 < right then do
    let held ← take left
    let x ← take (right - 1)
    put left x
    put (right - 1) held
    driftReverse (left + 1) (right - 1)
  else pure ⟨⟩
termination_by right - left

/-- The loops of `drift_natural_run`: `while end < size && drift_less(items, by, end, end - 1)`, and
the one with `!drift_less`. -/
def runEnd (descending : Bool) (size end_ : ℕ) : Sort_ α σ ℕ :=
  if end_ < size then do
    let less ← driftLess by_ end_ (end_ - 1)
    if less = descending then runEnd descending size (end_ + 1) else pure end_
  else pure end_
termination_by size - end_

def driftNaturalRun (start size : ℕ) : Sort_ α σ (ℕ × Bool) :=
  if size ≤ start + 1 then pure (1, false)
  else do
    let descending ← driftLess by_ (start + 1) start
    let end_ ← runEnd by_ descending size (start + 2)
    pure (end_ - start, descending)

/-! ### Merging -/

/-- Whether a merge takes the next element from the right run. -/
def takeRight (middle end_ left right : ℕ) : Sort_ α σ Bool :=
  if left = middle then pure true
  else if right < end_ then driftLess by_ right left
  else pure false

/-- The first loop of `drift_merge`. -/
def mergeClasses (middle end_ out left right : ℕ) : Sort_ α σ PUnit :=
  if out < end_ then do
    let takeRight ← takeRight by_ middle end_ left right
    putClass out (if takeRight then 1 else 0)
    if takeRight then mergeClasses middle end_ (out + 1) left (right + 1)
    else mergeClasses middle end_ (out + 1) (left + 1) right
  else pure ⟨⟩
termination_by end_ - out

/-- The second loop of `drift_merge`. -/
def mergeMoves (end_ out left right : ℕ) : Sort_ α σ PUnit :=
  if out < end_ then do
    let c ← classAt out
    if c = 1 then do
      let x ← take right
      putScratch out x
      mergeMoves end_ (out + 1) left (right + 1)
    else do
      let x ← take left
      putScratch out x
      mergeMoves end_ (out + 1) (left + 1) right
  else pure ⟨⟩
termination_by end_ - out

/-- `while index < end: items.at(index).write(scratch.at(index).read()); index += 1` -/
def copyBack (end_ index : ℕ) : Sort_ α σ PUnit :=
  if index < end_ then do
    let x ← takeScratch index
    put index x
    copyBack end_ (index + 1)
  else pure ⟨⟩
termination_by end_ - index

def driftMerge (start middle end_ : ℕ) : Sort_ α σ PUnit := do
  mergeClasses by_ middle end_ start start middle
  mergeMoves end_ start start middle
  copyBack end_ start

/-! ### Merge sort -/

/-- The first loop of `drift_merge_sort`: the blocks of `run` elements, sorted. -/
def sortBlocks (run : ℕ) (hrun : 0 < run) (end_ at_ : ℕ) : Sort_ α σ PUnit :=
  if at_ < end_ then do
    let stop := at_ + (if run < end_ - at_ then run else end_ - at_)
    driftInsertionSort by_ at_ stop
    sortBlocks run hrun end_ stop
  else pure ⟨⟩
termination_by end_ - at_
decreasing_by split <;> omega

/-- The inner loop of `drift_merge_sort`: the pairs of blocks of `width` elements, merged. -/
def mergeBlocks (width : ℕ) (hwidth : 0 < width) (end_ at_ : ℕ) : Sort_ α σ PUnit :=
  if at_ < end_ then do
    let middle := at_ + (if width < end_ - at_ then width else end_ - at_)
    let stop := middle + (if width < end_ - middle then width else end_ - middle)
    if middle < stop then do
      driftMerge by_ at_ middle stop
      mergeBlocks width hwidth end_ stop
    else mergeBlocks width hwidth end_ stop
  else pure ⟨⟩
termination_by end_ - at_
decreasing_by all_goals grind

/-- The second loop of `drift_merge_sort`. -/
def mergeRounds (start end_ width : ℕ) (hwidth : 0 < width) : Sort_ α σ PUnit :=
  if width < end_ - start then do
    mergeBlocks by_ width hwidth end_ start
    if end_ - start - width ≤ width then pure ⟨⟩
    else mergeRounds start end_ (width * 2) (Nat.mul_pos hwidth Nat.two_pos)
  else pure ⟨⟩
termination_by end_ - start - width

def driftMergeSort (start end_ : ℕ) : Sort_ α σ PUnit := do
  sortBlocks by_ 16 (by decide) end_ start
  mergeRounds by_ start end_ 16 (by decide)

/-! ### Quicksort -/

def driftLog2 (value : ℕ) : ℕ := if 1 < value then driftLog2 (value / 2) + 1 else 0
termination_by value

/-- The class of an element whose comparison with the pivot gives `o`. -/
def classOf : Ordering → ℕ
  | .lt => 0
  | .eq => 1
  | .gt => 2

/-- The first loop of `drift_quick_sort`: the numbers of lesser and of equal elements. -/
def classify (pivot end_ index less equal : ℕ) : Sort_ α σ (ℕ × ℕ) :=
  if index < end_ then do
    let o ← compareAt by_ index pivot
    putClass index (classOf o)
    classify pivot end_ (index + 1) (less + if o = .lt then 1 else 0)
      (equal + if o = .eq then 1 else 0)
  else pure (less, equal)
termination_by end_ - index

/-- The second loop of `drift_quick_sort`. -/
def distribute (end_ index lessAt equalAt greaterAt : ℕ) : Sort_ α σ PUnit :=
  if index < end_ then do
    let c ← classAt index
    match c with
    | 0 => do
      let x ← take index
      putScratch lessAt x
      distribute end_ (index + 1) (lessAt + 1) equalAt greaterAt
    | 1 => do
      let x ← take index
      putScratch equalAt x
      distribute end_ (index + 1) lessAt (equalAt + 1) greaterAt
    | _ => do
      let x ← take index
      putScratch greaterAt x
      distribute end_ (index + 1) lessAt equalAt (greaterAt + 1)
  else pure ⟨⟩
termination_by end_ - index

/-- `drift_quick_sort`, given its `limit` first. -/
def driftQuickSort : (limit start end_ : ℕ) → Sort_ α σ PUnit
  | 0, start, end_ =>
    if end_ - start ≤ 16 then driftInsertionSort by_ start end_
    else driftMergeSort by_ start end_
  | limit + 1, start, end_ =>
    if end_ - start ≤ 16 then driftInsertionSort by_ start end_
    else do
      let (less, equal) ← classify by_ (start + (end_ - start) / 2) end_ start 0 0
      if equal = end_ - start then pure ⟨⟩
      else do
        distribute end_ start start (start + less) (start + less + equal)
        copyBack end_ start
        driftQuickSort limit start (start + less)
        driftQuickSort limit (start + less + equal) end_

def driftSortLazyRun (start end_ : ℕ) : Sort_ α σ PUnit :=
  driftQuickSort by_ (2 * driftLog2 (end_ - start)) start end_

/-! ### The merge tree -/

/-- A logical run of the merge tree; an unsorted one is sorted only when it meets a sorted one. -/
structure DriftRun where
  start : ℕ
  len : ℕ
  sorted : Bool
  deriving DecidableEq, Repr

/-- `drift_sort_lazy_run` of a run that is not sorted yet. -/
def sortRun (r : DriftRun) : Sort_ α σ PUnit :=
  if r.sorted then pure ⟨⟩ else driftSortLazyRun by_ r.start (r.start + r.len)

def driftLogicalMerge (left right : DriftRun) : Sort_ α σ DriftRun :=
  if !left.sorted && !right.sorted then pure ⟨left.start, left.len + right.len, false⟩
  else do
    sortRun by_ left
    sortRun by_ right
    driftMerge by_ left.start right.start (right.start + right.len)
    pure ⟨left.start, left.len + right.len, true⟩

def driftScaleFactor (size : ℕ) : ℕ := (2 ^ 62 + size - 1) / size

/-- `drift_merge_depth`: how many bits from the left the two products agree. -/
def driftMergeDepth (left middle right scale : ℕ) : ℕ :=
  64 - Nat.size ((scale * (left + middle) % 2 ^ 64) ^^^ (scale * (middle + right) % 2 ^ 64))

def driftSqrtApprox (size : ℕ) : ℕ :=
  let shift := (1 + driftLog2 (size ||| 1)) / 2
  (2 ^ shift + size / 2 ^ shift) / 2

/-- The least length of a natural run that is kept. -/
def minimumRun (size : ℕ) : ℕ :=
  if size ≤ 64 * 64 then
    let half := size - size / 2
    if half < 64 then half else 64
  else driftSqrtApprox size

/-- A run that is left unsorted. -/
def lazyRun (start minimum size : ℕ) : DriftRun :=
  ⟨start, if minimum < size - start then minimum else size - start, false⟩

def driftCreateRun (start minimum size : ℕ) : Sort_ α σ DriftRun :=
  if minimum ≤ size - start then do
    let (len, reversed) ← driftNaturalRun by_ start size
    if minimum ≤ len then
      if reversed then do
        driftReverse start (start + len)
        pure ⟨start, len, true⟩
      else pure ⟨start, len, true⟩
    else pure (lazyRun start minimum size)
  else pure (lazyRun start minimum size)

/-- `while runs.len() > 1 && depths.last().unwrap_or(0) >= depth`, with the tops of the stacks
first: the stacks and the run that are left. -/
def collapse (depth : ℕ) :
    List DriftRun → List ℕ → DriftRun → Sort_ α σ ((List DriftRun × List ℕ) × DriftRun)
  | [], depths, prev => pure (([], depths), prev)
  | left :: runs, depths, prev =>
    if runs ≠ [] ∧ depth ≤ depths.headD 0 then do
      let prev ← driftLogicalMerge by_ left prev
      collapse depth runs depths.tail prev
    else pure ((left :: runs, depths), prev)

/-- The main loop of `drift_sort`, which gives the last `prev`. -/
def buildRuns (size minimum scale : ℕ) :
    (turns scan : ℕ) → DriftRun → List DriftRun → List ℕ → Sort_ α σ DriftRun
  | 0, _, _, _, _ => throw .stuck
  | turns + 1, scan, prev, runs, depths =>
    if scan < size then do
      let next ← driftCreateRun by_ scan minimum size
      let depth := driftMergeDepth prev.start scan (scan + next.len) scale
      let ((runs, depths), prev) ← collapse by_ depth runs depths prev
      buildRuns size minimum scale turns (scan + next.len) next (prev :: runs) (depth :: depths)
    else do
      let (_, prev) ← collapse by_ 0 runs depths prev
      pure prev

/-- `Buffer::new` of the scratch room and of the classes. -/
def newRooms (size : ℕ) : Sort_ α σ PUnit :=
  modify fun s =>
    { s with scratch := List.replicate size none, classes := List.replicate size none }

def driftSort (size : ℕ) : Sort_ α σ PUnit :=
  if size < 2 then pure ⟨⟩
  else if size ≤ 16 then driftInsertionSort by_ 0 size
  else do
    let (run, reversed) ← driftNaturalRun by_ 0 size
    if run = size then
      if reversed then driftReverse 0 size else pure ⟨⟩
    else do
      newRooms size
      let prev ← buildRuns by_ size (minimumRun size) (driftScaleFactor size) (size + 1) 0
        ⟨0, 0, true⟩ [] []
      if prev.sorted then pure ⟨⟩ else driftSortLazyRun by_ 0 size

end

end HdLang.Drift
