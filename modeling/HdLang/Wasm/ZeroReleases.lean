import HdLang.Wasm.Model
import Mathlib.Order.Lattice

/-!
# Releases of what is zero

`zero_releases` deletes the releases and the stores that a forward analysis of the locals proves
redundant. Where a body's blocks branch only forward, `zeroSweep` meets and drops the facts in one
pass in block order; elsewhere `zeroFixpoint` runs a worklist. A fact row is words of 64 locals each;
an index outside a list is a panic.
-/

namespace HdLang.Wasm

open Structured

/-- Why an analysis gives nothing: `fuel` when the turns of its loop run out. -/
inductive Halt
  | panic
  | fuel
  deriving DecidableEq, Repr

/-- The result of a computation that panics where it has none. -/
def orPanic {α : Type} : Option α → Except Halt α
  | some x => .ok x
  | none => .error .panic

/-! ### Edges -/

/-- The `end` of the block that the first instruction opens, when it has no `else`; `d` is the depth
and `k` the place of the first instruction. -/
def blockEnd : ℕ → ℕ → List Ins → Option ℕ
  | _, _, [] => none
  | d, k, i :: rest =>
    match i with
    | .block _ | .loop _ | .if_ _ => blockEnd (d + 1) (k + 1) rest
    | .else_ => if d = 1 then none else blockEnd d (k + 1) rest
    | .end_ => if d - 1 = 0 then some k else blockEnd (d - 1) (k + 1) rest
    | .op _ => blockEnd d (k + 1) rest

inductive ZeroEdges
  | next
  | exit
  | jump (place : ℕ)
  | either (a b : ℕ)
  | table (targets : List ℕ)
  deriving DecidableEq, Repr

/-- The places that `each` visits, in order. -/
def ZeroEdges.each (next : ℕ) : ZeroEdges → List ℕ
  | .next => [next]
  | .exit => []
  | .jump place => [place]
  | .either a b => [a, b]
  | .table targets => targets

/-- What the first walk of `zero_edges` writes: each opening's `end` and `else`, and the openings that
are not closed, the innermost first. -/
structure Openings where
  ends : List ℕ
  other : List (Option ℕ)
  labels : List ℕ

def Openings.walk (s : Openings) (at_ : ℕ) (ins : Ins) : Option Openings :=
  match ins with
  | .block _ | .loop _ | .if_ _ => some { s with labels := at_ :: s.labels }
  | .else_ => s.labels.head?.map fun opened => { s with other := s.other.set opened (some at_) }
  | .end_ =>
    match s.labels with
    | opened :: labels => some { s with ends := s.ends.set opened at_, labels }
    | [] => some s
  | .op _ => some s

/-- Where a branch by `depth` labels lands. -/
def target (body : List Ins) (ends labels : List ℕ) (depth : ℕ) : Option ℕ :=
  match labels[depth]? with
  -- the implicit function label
  | none => pure body.length
  | some opened => do
    match ← body[opened]? with
    | .loop _ => pure (opened + 1)
    | _ => do pure ((← ends[opened]?) + 1)

/-- The edges that leave an instruction, and the labels after it; `none` at an `else` outside every
block. -/
def edgeOf (body : List Ins) (labelLists : List (List ℕ)) (s : Openings) (labels : List ℕ) (at_ : ℕ)
    (ins : Ins) : Option (Option (ZeroEdges × List ℕ)) :=
  match ins with
  | .block _ | .loop _ => pure (some (.next, at_ :: labels))
  | .if_ _ => do
    let skip ←
      match ← s.other[at_]? with
      | some e => pure (e + 1)
      | none => do pure ((← s.ends[at_]?) + 1)
    pure (some (.either (at_ + 1) skip, at_ :: labels))
  | .else_ =>
    match labels with
    | [] => pure none
    | opened :: _ => do pure (some (.jump ((← s.ends[opened]?) + 1), labels))
  | .end_ => pure (some (.next, labels.tail))
  | .op (.br depth) => do pure (some (.jump (← target body s.ends labels depth), labels))
  | .op (.brIf depth) => do
    pure (some (.either (at_ + 1) (← target body s.ends labels depth), labels))
  | .op (.brTable table default) => do
    let targets ← ((← labelLists[table]?) ++ [default]).mapM (target body s.ends labels)
    pure (some (.table targets, labels))
  | .op .ret | .op .unreachable => pure (some (.exit, labels))
  | .op _ => pure (some (.next, labels))

/-- The second walk of `zero_edges`. -/
def edgesFrom (body : List Ins) (labelLists : List (List ℕ)) (s : Openings) :
    ℕ → List ℕ → List Ins → Option (Option (List ZeroEdges))
  | _, _, [] => pure (some [])
  | at_, labels, ins :: rest => do
    match ← edgeOf body labelLists s labels at_ ins with
    | none => pure none
    | some (edge, labels) =>
      return (← edgesFrom body labelLists s (at_ + 1) labels rest).map (edge :: ·)

def zeroEdges (body : List Ins) (labelLists : List (List ℕ)) :
    Option (Option (List ZeroEdges)) :=
  let start : Openings :=
    ⟨List.replicate body.length body.length, List.replicate body.length none, []⟩
  match body.zipIdx.foldlM (fun s (ins, at_) => s.walk at_ ins) start with
  | none => pure none
  | some s => if s.labels = [] then edgesFrom body labelLists s 0 [] body else pure none

/-- The marks of the places that begin a block, with those that the edges at `at_` add. -/
def markEdge (marks : List Bool) (edge : ZeroEdges) (at_ : ℕ) : List Bool :=
  if edge = .next then marks
  else (edge.each (at_ + 1)).foldl (fun marks place => marks.set place true)
    (marks.set (at_ + 1) true)

/-- The places that begin a block. -/
def blockMarks (edges : List ZeroEdges) (len : ℕ) : List Bool :=
  edges.zipIdx.foldl (fun marks row => markEdge marks row.1 row.2)
    ((List.replicate len false).set 0 true)

/-- The blocks of the places from `at_` on, and the blocks' starts after those in `starts`. -/
def numberBlocks : List Bool → ℕ → List ℕ → List ℕ × List ℕ
  | [], _, starts => ([], starts)
  | mark :: rest, at_, starts =>
    let starts : List ℕ := if mark then starts ++ [at_] else starts
    let (points, all) := numberBlocks rest (at_ + 1) starts
    ((starts.length - 1) :: points, all)

/-- Each place's block, and each block's first place. -/
def basicBlocks (edges : List ZeroEdges) (len : ℕ) : List ℕ × List ℕ :=
  numberBlocks (blockMarks edges len) 0 []

/-- The place after block `point`. -/
def blockStop (starts : List ℕ) (len point : ℕ) : ℕ := (starts[point + 1]?).getD len

/-- The blocks that the edges at the end of a block enter. -/
def entered (pointAt : List ℕ) (stop : ℕ) (edge : ZeroEdges) : List ℕ :=
  (edge.each stop).filterMap fun place => pointAt[place]?

def forwardOnly (edges : List ZeroEdges) (pointAt starts : List ℕ) (len : ℕ) : Option Bool :=
  (List.range starts.length).foldlM
    (fun forward point => do
      let stop := blockStop starts len point
      let edge ← edges[stop - 1]?
      pure (forward && (entered pointAt stop edge).all fun next => !decide (next ≤ point)))
    true

/-! ### Facts -/

/-- Which locals are known to hold zero. -/
structure Row (words : ℕ) where
  words : Vector (BitVec 64) words
  deriving DecidableEq

variable {words : ℕ}

/-- The local's word, and its bit there. -/
def zeroLocal (known : Row words) (l : ℕ) : Option Bool :=
  (known.words[l / 64]?).map fun word => word.getLsbD (l % 64)

def setZero (known : Row words) (l : ℕ) (zero : Bool) : Option (Row words) :=
  if h : l / 64 < words then
    let word := known.words[l / 64]
    let bit := 1#64 <<< (l % 64)
    some ⟨known.words.set (l / 64) (if zero then word ||| bit else word &&& ~~~bit)⟩
  else none

def pushesZero (ins : Ins) (known : Row words) : Option Bool :=
  match ins with
  | .op (.i32Const c) => pure (c = 0)
  | .op (.i64Const c) => pure (c = 0)
  | .op (.f32Const bits) => pure (bits = 0)
  | .op (.f64Const bits) => pure (bits = 0)
  | .op (.localGet l) => zeroLocal known l
  | _ => pure false

/-- Whether instruction `ins` keeps a zero on the stack that it stores. -/
def teesZero (ins : Ins) (known : Row words) : Option Bool :=
  match ins with
  | .op (.localTee t) => zeroLocal known t
  | _ => pure false

/-- Whether what a store at place `at_` stores is zero. -/
def storesZero (body : List Ins) (known : Row words) : ℕ → Option Bool
  | 0 => pure false
  | p + 1 => do
    let ins ← body[p]?
    let pushed ← pushesZero ins known
    let teed ← teesZero ins known
    pure (pushed || teed)

def zeroAfter (body : List Ins) (at_ : ℕ) (known : Row words) : Option (Row words) := do
  let ins ← body[at_]?
  match ins with
  | .op (.localSet l) | .op (.localTee l) => do
    let zero ← storesZero body known at_
    setZero known l zero
  -- a suspended frame may contain any values
  | .op .loadAll => pure ⟨Vector.replicate words 0⟩
  | _ => pure known

/-! ### Decisions -/

/-- The places of a release's arguments, going down from place `p`, when there are `n` of them after
those in `args`. -/
def releaseArgs (body : List Ins) (known : Row words) (n : ℕ) :
    ℕ → List ℕ → Option (List ℕ)
  | 0, args => pure args
  | p + 1, args => do
    match ← body[p]? with
    | .op (.anchor _) => releaseArgs body known n p args
    | ins =>
      if args.length = n then pure args
      else if ← pushesZero ins known then releaseArgs body known n p (args ++ [p])
      else pure args

/-- The nearest place before `at_` that is no anchor. -/
def beforeAnchors (body : List Ins) : ℕ → Option (Option ℕ)
  | 0 => pure none
  | p + 1 => do
    match ← body[p]? with
    | .op (.anchor _) => beforeAnchors body p
    | _ => pure (some p)

/-- The guard before an `if` on a local that is zero: the local's place and the `end`. -/
def zeroGuard (body : List Ins) (known : Row words) (at_ : ℕ) : Option (Option (ℕ × ℕ)) := do
  match ← beforeAnchors body at_ with
  | none => pure none
  | some p =>
    match ← body[p]? with
    | .op (.localGet l) =>
      if ← pushesZero (.op (.localGet l)) known then
        pure ((blockEnd 0 at_ (body.drop at_)).map fun stop => (p, stop))
      else pure none
    | _ => pure none

/-- The marks with those of the places set. -/
def markAll (gone : List Bool) (places : List ℕ) : Option (List Bool) :=
  places.foldlM (fun gone p => if p < gone.length then some (gone.set p true) else none) gone

/-- What `decide_block` marks at one place. -/
def decideAt (f : Func) (releaseWidth : Ins → Option ℕ) (at_ : ℕ) (known : Row words)
    (gone : List Bool) : Option (List Bool) := do
  let ins ← f.body[at_]?
  match releaseWidth ins with
  | some n =>
    let args ← releaseArgs f.body known n at_ []
    if args.length = n then markAll gone (at_ :: args) else pure gone
  | none =>
    match ins with
    | .if_ .empty =>
      match ← zeroGuard f.body known at_ with
      | some (p, stop) => markAll gone (p :: List.range' at_ (stop + 1 - at_))
      | none => pure gone
    | .op (.localSet l) | .op (.localTee l) =>
      if ← zeroLocal known l then
        if at_ = 0 then pure gone
        else if ← pushesZero (← f.body[at_ - 1]?) known then
          match ins with
          | .op (.localSet _) => markAll gone [at_, at_ - 1]
          | _ => markAll gone [at_]
        else pure gone
      else pure gone
    | _ => pure gone

/-- The marks after a block, and the facts at its end. -/
def decideBlock (f : Func) (start stop : ℕ) (known : Row words) (gone : List Bool)
    (releaseWidth : Ins → Option ℕ) : Option (Row words × List Bool) :=
  (List.range' start (stop - start)).foldlM
    (fun (known, gone) at_ => do
      let gone ← decideAt f releaseWidth at_ known gone
      -- the original transfers: pending removals do not affect later decisions
      let known ← zeroAfter f.body at_ known
      pure (known, gone))
    (known, gone)

/-! ### The sweep -/

/-- The facts of both. -/
def Row.meet (a b : Row words) : Row words := ⟨a.words.zipWith (· &&& ·) b.words⟩

/-- Block `next` waits with what `known` brings. -/
def bring (known : Row words) (waiting : List (Option (Row words))) (next : ℕ) :
    Option (List (Option (Row words))) := do
  match ← waiting[next]? with
  | some before => pure (waiting.set next (some (before.meet known)))
  | none => pure (waiting.set next (some known))

def sweepBlock (f : Func) (edges : List ZeroEdges) (pointAt starts : List ℕ)
    (releaseWidth : Ins → Option ℕ) (s : List (Option (Row words)) × List Bool) (point : ℕ) :
    Option (List (Option (Row words)) × List Bool) := do
  match ← s.1[point]? with
  | none => pure s
  | some known =>
    let waiting := s.1.set point none
    let stop := blockStop starts f.body.length point
    let (known, gone) ← decideBlock f (← starts[point]?) stop known s.2 releaseWidth
    let waiting ← (entered pointAt stop (← edges[stop - 1]?)).foldlM (bring known) waiting
    pure (waiting, gone)

def zeroSweep (f : Func) (edges : List ZeroEdges) (pointAt starts : List ℕ) (entry : Row words)
    (releaseWidth : Ins → Option ℕ) : Option (List Bool) := do
  let waiting ←
    if starts = [] then none else some ((List.replicate starts.length none).set 0 (some entry))
  let s ← (List.range starts.length).foldlM (sweepBlock f edges pointAt starts releaseWidth)
    (waiting, List.replicate f.body.length false)
  pure s.2

/-! ### The fixed point -/

/-- The worklist's state. -/
structure Fixpoint (words : ℕ) where
  facts : List (Row words)
  reachable : List Bool
  pending : List ℕ
  queued : List Bool

/-- Before the first turn only the first block is reachable, and it is queued. -/
def Fixpoint.start (n : ℕ) (entry : Row words) : Fixpoint words where
  facts := (List.replicate n ⟨Vector.replicate words 0⟩).set 0 entry
  reachable := (List.replicate n false).set 0 true
  pending := [0]
  queued := (List.replicate n false).set 0 true

/-- Block `next` meets what `known` brings; a block whose facts change is queued. -/
def Fixpoint.visit (known : Row words) (s : Fixpoint words) (next : ℕ) :
    Option (Fixpoint words) := do
  let before ← s.facts[next]?
  let (s, changed) :=
    if ← s.reachable[next]? then
      ({ s with facts := s.facts.set next (before.meet known) },
        decide (before.meet known ≠ before))
    else
      ({ s with reachable := s.reachable.set next true, facts := s.facts.set next known }, true)
  if changed && !(← s.queued[next]?) then
    pure { s with pending := s.pending ++ [next], queued := s.queued.set next true }
  else pure s

/-- The facts at a block's end. -/
def transfer (body : List Ins) (start stop : ℕ) (known : Row words) : Option (Row words) :=
  (List.range' start (stop - start)).foldlM (fun known at_ => zeroAfter body at_ known) known

/-- What block `point` brings to the blocks it enters. -/
def Fixpoint.flow (f : Func) (edges : List ZeroEdges) (pointAt starts : List ℕ)
    (s : Fixpoint words) (point : ℕ) : Option (Fixpoint words) := do
  let stop := blockStop starts f.body.length point
  let known ← transfer f.body (← starts[point]?) stop (← s.facts[point]?)
  (entered pointAt stop (← edges[stop - 1]?)).foldlM (visit known) s

/-- `while let Some(point) = pending.pop_front()` -/
def Fixpoint.loop (f : Func) (edges : List ZeroEdges) (pointAt starts : List ℕ) :
    ℕ → Fixpoint words → Except Halt (Fixpoint words)
  | fuel, s =>
    match fuel, s.pending with
    | _, [] => pure s
    | 0, _ :: _ => throw .fuel
    | fuel + 1, point :: pending => do
      let s ← orPanic
        (flow f edges pointAt starts { s with pending, queued := s.queued.set point false } point)
      loop f edges pointAt starts fuel s

/-- The marks after the decisions of block `point`. -/
def Fixpoint.decide (s : Fixpoint words) (f : Func) (starts : List ℕ)
    (releaseWidth : Ins → Option ℕ) (gone : List Bool) (point : ℕ) : Option (List Bool) := do
  if ← s.reachable[point]? then
    let stop := blockStop starts f.body.length point
    let (_, gone) ← decideBlock f (← starts[point]?) stop (← s.facts[point]?) gone releaseWidth
    pure gone
  else pure gone

def zeroFixpoint (fuel : ℕ) (f : Func) (edges : List ZeroEdges) (pointAt starts : List ℕ)
    (entry : Row words) (releaseWidth : Ins → Option ℕ) : Except Halt (List Bool) := do
  if starts = [] then throw .panic
  let s ← Fixpoint.loop f edges pointAt starts fuel (.start starts.length entry)
  orPanic ((List.range starts.length).foldlM (s.decide f starts releaseWidth)
    (List.replicate f.body.length false))

end HdLang.Wasm
