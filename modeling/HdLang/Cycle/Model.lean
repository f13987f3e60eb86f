import HdLang.Arith
import Mathlib.Data.Finset.Basic

/-!
# The cycle collector: `std.rt.cycle`

The collector of `lib/std/rt/cycle.hd`, statement by statement, over the objects of the heap. An
object is its header (the count, and the bits of its descriptor word) and what its release glue
releases: references to other blocks and the rooms of its buffers. `block_of` is a parameter, the
allocator's. The collector's arrays are their items and capacity.

`collect` is given three functions by the backend (`rt.rs`). `cycleTrace` and `cycleFree` are two of
them: the release glue with each reference handed to `visit` first, and the runtime's free. The
third, `release`, stays a parameter.

Counts are 32-bit, with checked arithmetic, and so is the threshold, which doubles. The numbers of
objects, candidates and array items stay below `2^32`, as a block has at least 16 bytes.
-/

namespace HdLang

namespace Cycle

/-! ### Objects -/

inductive Color
  | black
  | gray
  | white
  deriving DecidableEq, Repr

/-- What `visit` does with the references that `trace` finds. -/
inductive Mode
  | idle
  | mark
  | scan
  | restore
  | collect
  deriving DecidableEq, Repr

/-- The tags of a scan's work list, in the low bits of a block's address. -/
def SCAN : ℕ := 2
def RESTORE : ℕ := 3

/-- The candidate buffer's first threshold. -/
def FIRST : ℕ := 10000

/-- One thing that release glue releases. -/
inductive Hold
  /-- A reference: an address in a block. -/
  | reference (address : ℕ)
  /-- The room of a buffer, by its block. -/
  | room (block : ℕ)
  deriving DecidableEq, Repr

/-- An object: its header and what its release glue releases, in the glue's order. -/
structure Object where
  count : ℕ
  /-- `CYCLIC`: it takes part in cycle collection. -/
  cyclic : Bool
  /-- `BUFFERED`: it is in the candidate buffer. -/
  buffered : Bool
  color : Color
  /-- `FRAME`: it is a suspension frame. -/
  frame : Bool
  /-- `FRAME_RUNNING`: a frame's saved slots are stale. -/
  running : Bool
  glue : List Hold
  deriving DecidableEq, Repr

/-- An array of addresses; the capacity is 0 before its first push. -/
structure Items where
  items : List ℕ := []
  capacity : ℕ := 0
  deriving DecidableEq, Repr

namespace Items

def length (array : Items) : ℕ := array.items.length

def item (array : Items) (i : ℕ) : ℕ := array.items.getD i 0

def setItem (array : Items) (i value : ℕ) : Items :=
  { array with items := array.items.set i value }

def push (array : Items) (value : ℕ) : Items :=
  let cap := if array.capacity = 0 then 64 else array.capacity
  ⟨array.items ++ [value], if array.length = cap then 2 * cap else cap⟩

/-- The last item, which `pop` gives. -/
def top (array : Items) : ℕ := array.items.getLastD 0

/-- The array once its last item is taken. -/
def pop (array : Items) : Items := { array with items := array.items.dropLast }

def clear (array : Items) : Items := { array with items := [] }

end Items

/-- The heap's objects and the collector's bindings. -/
structure State where
  /-- The blocks of objects that are allocated. -/
  live : Finset ℕ
  object : ℕ → Object
  /-- The blocks that collections gave to `free`, in order. -/
  collected : List ℕ := []
  roots : Items := {}
  candidates : ℕ := 0
  stack : Items := {}
  garbage : Items := {}
  later : Items := {}
  rooms : Items := {}
  mode : Mode := .idle
  collecting : Bool := false
  threshold : ℕ := FIRST
  visited : ℕ := 0
  dead : ℕ := 0
  sweepOnly : Bool := false

/-- A computation over the heap's objects. -/
abbrev Run := StateT State (Except Stop)

/-- The state with `f` done to the object at `block`. -/
def State.update (s : State) (block : ℕ) (f : Object → Object) : State :=
  { s with object := Function.update s.object block (f (s.object block)) }

def change (block : ℕ) (f : Object → Object) : Run Unit := modify fun s => s.update block f

def color (block : ℕ) : Run Color := do
  let s ← get
  pure (s.object block).color

def paint (block : ℕ) (c : Color) : Run Unit := change block fun o => { o with color := c }

/-- Whether an object takes part: it is cyclic and, for a frame, its saved slots are stable. -/
def Object.takesPart (o : Object) : Bool := o.cyclic && (!o.frame || !o.running)

def takesPart (block : ℕ) : Run Bool := do
  let s ← get
  pure (s.object block).takesPart

def load (block : ℕ) : Run ℕ := do
  let s ← get
  pure (s.object block).count

def store (block count : ℕ) : Run Unit := change block fun o => { o with count := count }

def pushStack (value : ℕ) : Run Unit := modify fun s => { s with stack := s.stack.push value }

def pushGarbage (value : ℕ) : Run Unit := modify fun s => { s with garbage := s.garbage.push value }

def pushLater (value : ℕ) : Run Unit := modify fun s => { s with later := s.later.push value }

def pushRoom (value : ℕ) : Run Unit := modify fun s => { s with rooms := s.rooms.push value }

def popStack : Run ℕ := do
  let s ← get
  set { s with stack := s.stack.pop }
  pure s.stack.top

def setMode (mode : Mode) : Run Unit := modify fun s => { s with mode := mode }

/-! ### Frees -/

/-- `std.rt.alloc.free_block`: the block is no longer allocated. -/
def freeBlock (block : ℕ) : Run Unit := modify fun s => { s with live := s.live.erase block }

/-- Whether the object at `block`, which is being freed, is a candidate: it then stays in the
buffer with a count of 0. -/
def keep (block : ℕ) : Run Bool := do
  let s ← get
  if (s.object block).buffered then do
    store block 0
    modify fun s => { s with dead := s.dead + 1 }
    pure true
  else pure false

def free (address : ℕ) : Run Unit := do
  if ← keep address then pure () else freeBlock address

/-- The backend's `CycleFree`: `free`, noted as a collection's. -/
def cycleFree (block : ℕ) : Run Unit := do
  modify fun s => { s with collected := s.collected ++ [block] }
  free block

/-! ### Tracing -/

section Tracing

variable (blockOf : ℕ → ℕ) (build : Build)

/-- While a collection traces an object, takes the reference at `address` that its release glue
releases and gives true; else false. -/
def visit (address : ℕ) : Run Bool := do
  let mode := (← get).mode
  if mode = .idle then pure false
  else do
    let block := blockOf address
    if block = 0 then pure true
    else do
      let part ← takesPart block
      if mode = .collect then do
        if ¬part then pushLater address
        else if (← color block) = .white then do
          paint block .black
          pushGarbage block
          pushStack block
        pure true
      else if ¬part then pure true
      else do
        if mode = .mark then do
          store block (← minus build (← load block) 1)
          if (← color block) ≠ .gray then do
            paint block .gray
            pushStack block
        else if mode = .scan then pushStack (block + SCAN)
        else do
          store block (← plus build (← load block) 1)
          if (← color block) ≠ .black then do
            paint block .black
            pushStack (block + RESTORE)
        pure true

/-- Whether the collector keeps the room at `block`, whose buffer is being dropped. -/
def holdRoom (block : ℕ) : Run Bool := do
  let mode := (← get).mode
  if mode = .idle then pure false
  else do
    if mode = .collect then pushRoom block
    pure true

/-- One release of traced glue (`rt:release_ref` and `free_room`). -/
def traceHold (release : ℕ → Run Unit) : Hold → Run Unit
  | .reference address => do
    if ← visit blockOf build address then pure () else release address
  | .room block => do
    if ← holdRoom block then pure () else freeBlock block

def traceHolds (release : ℕ → Run Unit) : List Hold → Run Unit
  | [] => pure ()
  | hold :: holds => do
    traceHold blockOf build release hold
    traceHolds release holds

/-- The backend's `CycleTrace`: runs the release glue of the object at `block`. -/
def cycleTrace (release : ℕ → Run Unit) (block : ℕ) : Run Unit := do
  let s ← get
  traceHolds blockOf build release (s.object block).glue

end Tracing

/-! ### A collection -/

section Collection

variable (build : Build) (trace release free : ℕ → Run Unit)

def rootAt (i : ℕ) : Run ℕ := do
  let s ← get
  pure (s.roots.item i)

def setRoot (i value : ℕ) : Run Unit := modify fun s => { s with roots := s.roots.setItem i value }

/-- Takes candidate `s`, at `i` in the buffer, out of it. -/
def dropRoot (i s : ℕ) : Run Unit := do
  setRoot i 0
  modify fun st => { st with candidates := st.candidates - 1 }
  change s fun o => { o with buffered := false }

/-- The loop of `sweep` and `compact` over the `left` entries of the buffer from `i` on: moves those
that `keeps` keeps to the front, where `j` are already, and gives how many they are. -/
def gather (keeps : ℕ → Run Bool) : ℕ → ℕ → ℕ → Run ℕ
  | 0, _, j => pure j
  | left + 1, i, j => do
    let s ← rootAt i
    if s ≠ 0 then do
      if ← keeps s then do
        setRoot j s
        gather keeps left (i + 1) (j + 1)
      else gather keeps left (i + 1) j
    else gather keeps left (i + 1) j

/-- Makes the first `j` entries the buffer. -/
def cutRoots (j : ℕ) : Run Unit := modify fun s =>
  { s with roots := { s.roots with items := s.roots.items.take j }, candidates := j }

/-- Frees each candidate whose last count went and moves the rest to the buffer's front. -/
def sweep : Run Unit := do
  let n := (← get).roots.length
  let j ← gather (fun s => do
    if (← load s) = 0 then do
      change s fun o => { o with buffered := false }
      free s
      pure false
    else pure true) n 0 0
  cutRoots j
  modify fun s => { s with dead := 0 }

/-- Moves the candidates left to the buffer's front. -/
def compact : Run Unit := do
  let n := (← get).roots.length
  let j ← gather (fun _ => pure true) n 0 0
  cutRoots j

/-- `mark`'s walk; `fuel` bounds its turns. -/
def markFrom : ℕ → Run Unit
  | 0 => throw .diverges
  | fuel + 1 => do
    if 0 < (← get).stack.length then do
      let b ← popStack
      modify fun s => { s with visited := s.visited + 1 }
      setMode .mark
      trace b
      setMode .idle
      markFrom fuel
    else pure ()

/-- Marks gray all that candidate `s` reaches, taking one count off each object a gray one
references. -/
def mark (fuel s : ℕ) : Run Unit := do
  paint s .gray
  pushStack s
  markFrom trace fuel

/-- `scan`'s walk; `fuel` bounds its turns. -/
def scanFrom : ℕ → Run Unit
  | 0 => throw .diverges
  | fuel + 1 => do
    if 0 < (← get).stack.length then do
      let e ← popStack
      let b := e - e % 16
      if e % 16 = RESTORE then do
        setMode .restore
        trace b
        setMode .idle
      else if (← color b) = .gray then do
        if (← load b) > 0 then do
          paint b .black
          pushStack (b + RESTORE)
        else do
          paint b .white
          setMode .scan
          trace b
          setMode .idle
      scanFrom fuel
    else pure ()

/-- Scans what candidate `s` reached: a gray object with a count left turns black with all it
reaches, and the other gray objects turn white. -/
def scan (fuel s : ℕ) : Run Unit := do
  pushStack (s + SCAN)
  scanFrom trace fuel

/-- Traces each block on the stack with `visit` doing `how`; `fuel` bounds its turns. -/
def drain (how : Mode) : ℕ → Run Unit
  | 0 => throw .diverges
  | fuel + 1 => do
    if 0 < (← get).stack.length then do
      let b ← popStack
      setMode how
      trace b
      setMode .idle
      drain how fuel
    else pure ()

/-- `collect`'s loops over the `left` entries of the buffer from `i` on: `body` is done with each
candidate that takes part and its place. -/
def eachRoot (body : ℕ → ℕ → Run Unit) : ℕ → ℕ → Run Unit
  | 0, _ => pure ()
  | left + 1, i => do
    let s ← rootAt i
    if s ≠ 0 then do
      if ← takesPart s then body i s
    eachRoot body left (i + 1)

/-- The loop that frees the `left` objects of `garbage` from `i` on. -/
def freeGarbage : ℕ → ℕ → Run Unit
  | 0, _ => pure ()
  | left + 1, i => do
    free ((← get).garbage.item i)
    freeGarbage left (i + 1)

/-- The loops over an array that may grow: `body` is done with each item from `i` on; `fuel` bounds
the turns. -/
def eachItem (array : State → Items) (body : ℕ → Run Unit) : ℕ → ℕ → Run Unit
  | 0, _ => throw .diverges
  | fuel + 1, i => do
    let s ← get
    if i < (array s).length then do
      body ((array s).item i)
      eachItem array body fuel (i + 1)
    else pure ()

/-- Frees the candidates whose last count went, then, unless `due` asked for that alone, collects
the others' garbage cycles. `fuel` bounds the turns of each walk. -/
def collect (fuel : ℕ) : Run Unit := do
  if (← get).collecting then pure ()
  else do
    modify fun s => { s with collecting := true, visited := 0 }
    sweep free
    if (← get).sweepOnly then
      modify fun s => { s with sweepOnly := false, collecting := false }
    else do
      let n := (← get).roots.length
      eachRoot (fun i s => do
        if (← color s) ≠ .gray then mark trace fuel s else dropRoot i s) n 0
      eachRoot (fun _ s => scan trace fuel s) n 0
      eachRoot (fun i s => do
        dropRoot i s
        if (← color s) = .white then do
          paint s .black
          pushGarbage s
          pushStack s
          drain trace .collect fuel) n 0
      let freed := (← get).garbage.length
      freeGarbage free freed 0
      eachItem State.later release fuel 0
      modify fun s => { s with later := s.later.clear }
      eachItem State.rooms freeBlock fuel 0
      modify fun s => { s with rooms := s.rooms.clear, garbage := s.garbage.clear }
      compact
      let s ← get
      if freed * 2 ≥ s.visited then
        modify fun s =>
          { s with threshold := if s.threshold / 2 > FIRST then s.threshold / 2 else FIRST }
      else do
        let doubled ← times build s.threshold 2
        modify fun s => { s with threshold := doubled }
      modify fun s => { s with collecting := false }

end Collection

end Cycle

end HdLang
