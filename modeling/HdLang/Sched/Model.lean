import HdLang.Lib.Transition
import Mathlib.Data.Finset.Basic

/-!
# The task graph of `hd_sched`

A task waits on a count: one for its creation guard and one for each edge into it. It goes to the
ready queue when the count reaches zero, `pop` takes it out and `complete` lowers the counts of its
successors. An operation is `none` where the source panics: an index past the nodes, an edge into a
started task, or a count that leaves `u32` in a build with overflow checks; without them
(`checks = false`) the count wraps.
-/

namespace HdLang.Sched

/-! ### Tasks -/

/-- D2's tasks. -/
inductive ExtTask
  | collect
  | link
  | precompile
  | runCase (slot : UInt32)
  deriving DecidableEq, Repr

/-- Every task of the run. Payloads are dense run IDs. -/
inductive TaskKind
  | skim (file : UInt32)
  | parse (file : UInt32)
  | folderGraph
  | folderIface (folder : UInt32)
  | headerCheck (folder : UInt32)
  | modulePrep (module : UInt32)
  | body (module : UInt32)
  | moduleFinish (module : UInt32)
  | coherence
  | initOrder (module : UInt32)
  | packageResult
  | ext (task : ExtTask)
  deriving DecidableEq, Repr

inductive State
  | waiting
  | ready
  | running
  | done
  | cancelled
  deriving DecidableEq, Repr

namespace State

/-- `matches!(self, State::Done | State::Cancelled)`. -/
def finished : State → Bool
  | done | cancelled => true
  | _ => false

/-- `matches!(self, State::Waiting | State::Ready)`. -/
def unstarted : State → Bool
  | waiting | ready => true
  | _ => false

end State

structure TaskNode where
  kind : TaskKind
  /-- A `u32`. -/
  waitingOn : ℕ
  successors : List ℕ
  state : State
  priority : ℕ
  deriving DecidableEq, Repr

/-- A task's id is its place among the nodes. -/
structure TaskGraph where
  nodes : List TaskNode
  ready : List ℕ
  deriving DecidableEq, Repr

/-- How the serial executor picks among ready tasks. -/
inductive SerialOrder
  /-- In the order tasks became ready. -/
  | fifo
  /-- Highest priority first, then creation order. -/
  | priority
  /-- A seeded random choice. -/
  | shuffled (seed : UInt64)
  deriving DecidableEq, Repr

/-! ### Counts -/

/-- The number of values of `u32`. -/
def U32 : ℕ := 4294967296

section Counts

variable (checks : Bool)

/-- `waiting_on += 1`. -/
def increase (count : ℕ) : Option ℕ :=
  if count + 1 < U32 then some (count + 1) else if checks then none else some 0

/-- `waiting_on -= 1`. -/
def decrease (count : ℕ) : Option ℕ :=
  if 0 < count then some (count - 1) else if checks then none else some (U32 - 1)

end Counts

namespace TaskGraph

/-- The empty graph. -/
def empty : TaskGraph := ⟨[], []⟩

/-! ### Building the graph -/

section Build

variable (checks : Bool) (g : TaskGraph)

/-- Takes one count off `id` and readies it when that was its last: the body of `release` and of
the loop of `complete`. -/
def satisfy (id : ℕ) : Option TaskGraph := do
  let n ← g.nodes[id]?
  let count ← decrease checks n.waitingOn
  if count = 0 ∧ n.state = .waiting then
    some ⟨g.nodes.set id { n with waitingOn := count, state := .ready }, g.ready ++ [id]⟩
  else
    some { g with nodes := g.nodes.set id { n with waitingOn := count } }

/-- Drops a task's creation guard. -/
def release (id : ℕ) : Option TaskGraph := g.satisfy checks id

/-- A ready task that gets an edge is pulled back out of the queue. -/
def pullBack (id : ℕ) (n : TaskNode) : TaskGraph :=
  if n.state = .ready then
    ⟨g.nodes.set id { n with state := .waiting }, g.ready.filter (· ≠ id)⟩
  else g

/-- `target` waits for `source`. `target` must not have started. -/
def edge (source target : ℕ) : Option TaskGraph := do
  let t ← g.nodes[target]?
  if t.state.unstarted then
    let f ← g.nodes[source]?
    if f.state.finished then
      some g
    else
      let g := g.pullBack target t
      let f ← g.nodes[source]?
      let g := { g with
        nodes := g.nodes.set source { f with successors := f.successors ++ [target] } }
      let t ← g.nodes[target]?
      let count ← increase checks t.waitingOn
      some { g with nodes := g.nodes.set target { t with waitingOn := count } }
  else
    none

/-- The graph with one more task, waiting on its guard. -/
def push (kind : TaskKind) (priority : ℕ) : TaskGraph :=
  { g with nodes := g.nodes ++ [⟨kind, 1, [], .waiting, priority⟩] }

/-- The creation guard: the task waits on one extra count until `release`. -/
def addHeld (kind : TaskKind) (deps : List ℕ) (priority : ℕ) : Option (ℕ × TaskGraph) := do
  let id := g.nodes.length
  let g ← deps.foldlM (fun g d => g.edge checks d id) (g.push kind priority)
  some (id, g)

def addWithPriority (kind : TaskKind) (deps : List ℕ) (priority : ℕ) :
    Option (ℕ × TaskGraph) := do
  let (id, g) ← g.addHeld checks kind deps priority
  let g ← g.release checks id
  some (id, g)

def add (kind : TaskKind) (deps : List ℕ) : Option (ℕ × TaskGraph) :=
  g.addWithPriority checks kind deps 0

/-- Marks a task done and readies successors whose last dependency it was. -/
def complete (id : ℕ) : Option TaskGraph := do
  let n ← g.nodes[id]?
  let g := { g with nodes := g.nodes.set id { n with state := .done, successors := [] } }
  n.successors.foldlM (fun g s => g.satisfy checks s) g

end Build

/-- Marks every unfinished task cancelled. -/
def cancelAll (g : TaskGraph) : TaskGraph :=
  ⟨g.nodes.map fun n => if n.state ≠ .done then { n with state := .cancelled } else n, []⟩

/-- The number of tasks that are neither done nor cancelled. -/
def unfinished (g : TaskGraph) : ℕ := (g.nodes.filter fun n => !n.state.finished).length

/-! ### Taking a task -/

section Pop

variable (g : TaskGraph)

/-- `usize::MAX` of a 64-bit build. -/
def USIZE_MAX : ℕ := 18446744073709551615

/-- The key of `SerialOrder::Priority`. -/
def key (id : ℕ) : Option (ℕ × ℕ) := do
  let n ← g.nodes[id]?
  some (n.priority, USIZE_MAX - id)

/-- The lexicographic order of keys. -/
def keyLe (a b : ℕ × ℕ) : Bool := a.1 < b.1 ∨ (a.1 = b.1 ∧ a.2 ≤ b.2)

/-- `max_by_key` over the queue from position `at`, where `best` is the largest so far: the last of
several with the largest key. -/
def maxFrom (best : ℕ × (ℕ × ℕ)) : ℕ → List ℕ → Option ℕ
  | _, [] => some best.1
  | pos, id :: rest => do
    let k ← g.key id
    maxFrom (if keyLe best.2 k then (pos, k) else best) (pos + 1) rest

/-- The position of the queue that `order` takes: `none` when the queue has none. -/
def position : SerialOrder → Option (Option ℕ)
  | .fifo => some (some 0)
  | .priority =>
    match g.ready with
    | [] => some none
    | id :: rest => do
      let k ← g.key id
      let best ← g.maxFrom (0, k) 1 rest
      some (some best)
  | .shuffled seed =>
    if g.ready = [] then
      some none
    else
      let x := seed ^^^ (UInt64.ofNat g.nodes.length * 0x9e3779b97f4a7c15) ^^^
        UInt64.ofNat g.ready.length
      some (some (((x * 0xbf58476d1ce4e5b9) >>> 33).toNat % g.ready.length))

/-- Takes the next ready task in `order` and marks it running. -/
def pop (order : SerialOrder) : Option (Option ℕ × TaskGraph) := do
  let some pos ← g.position order | some (none, g)
  let some id := g.ready[pos]? | some (none, g)
  let n ← g.nodes[id]?
  some (some id, ⟨g.nodes.set id { n with state := .running }, g.ready.eraseIdx pos⟩)

/-- `drain`'s loop, `turns` times at most. -/
def drainFrom (g : TaskGraph) : ℕ → Option (List (ℕ × TaskKind) × TaskGraph)
  | 0 => none
  | turns + 1 => do
    let (popped, g) ← g.pop .fifo
    match popped with
    | none => some ([], g)
    | some id =>
      let n ← g.nodes[id]?
      let (out, g) ← g.drainFrom turns
      some ((id, n.kind) :: out, g)

/-- The pool's `drain`: takes every ready task. Each turn takes one, so the queue's length bounds
the turns. -/
def drain : Option (List (ℕ × TaskKind) × TaskGraph) := g.drainFrom (g.ready.length + 1)

end Pop

end TaskGraph

end HdLang.Sched

/-!
## Runs of a task graph

A `World` is a task graph with what its users did to it: the guards not dropped yet, every edge that
was asked for and every task that `pop` gave. `Does` is one operation, with the promises of its
caller: a guard is dropped once, only a task that was popped is completed, and once. `Step` is an
operation alone, as the serial executors do it, or one under the pool's lock, which drains the queue
before it lets go; what the threads of a pool do is a sequence of these. `Safe` is what holds of
every world of a run.
-/

namespace HdLang.Sched

namespace TaskGraph

variable (g : TaskGraph)

/-- The task is done or cancelled. -/
def finished (id : ℕ) : Bool := (g.nodes[id]?).any fun n => n.state.finished

def isDone (id : ℕ) : Bool := (g.nodes[id]?).any fun n => n.state = .done

/-- The count that the task waits on. -/
def waitingOn (id : ℕ) : ℕ := (g.nodes[id]?).elim 0 TaskNode.waitingOn

end TaskGraph

/-! ### Worlds -/

/-- An edge that was asked for. -/
structure Edge where
  source : ℕ
  target : ℕ
  /-- The source had not finished then: an edge from a finished task counts as satisfied at once. -/
  counted : Bool
  deriving DecidableEq, Repr

structure World where
  graph : TaskGraph
  /-- The tasks whose creation guard is not dropped. -/
  held : Finset ℕ
  edges : List Edge
  /-- What `pop` gave, the last first. -/
  returned : List ℕ

namespace World

def start : World := ⟨.empty, ∅, [], []⟩

variable (w : World)

/-- The count of a task's creation guard. -/
def guard (t : ℕ) : ℕ := if t ∈ w.held then 1 else 0

/-- The number of edges into `t` that were not satisfied at once and whose source has not
completed. -/
def pending (t : ℕ) : ℕ :=
  w.edges.countP fun e => e.target = t ∧ e.counted ∧ ¬w.graph.isDone e.source

/-- The edge from `source` to `target` that the next operation asks for. -/
def asked (target source : ℕ) : Edge := ⟨source, target, !w.graph.finished source⟩

end World

/-! ### Operations and steps -/

inductive Op
  | add (kind : TaskKind) (deps : List ℕ) (priority : ℕ)
  | addHeld (kind : TaskKind) (deps : List ℕ) (priority : ℕ)
  | release (id : ℕ)
  | edge (source target : ℕ)
  | pop (order : SerialOrder)
  | complete (id : ℕ)
  | cancelAll

/-- One operation that does not panic, in a build with or without overflow checks. -/
inductive Does (checks : Bool) : World → Op → World → Prop
  | add {w : World} {kind : TaskKind} {deps : List ℕ} {priority : ℕ} {id : ℕ}
    {g : TaskGraph} (hrun : w.graph.addWithPriority checks kind deps priority = some (id, g)) :
    Does checks w (.add kind deps priority) ⟨g, w.held, w.edges ++ deps.map (w.asked id), w.returned⟩
  | addHeld {w : World} {kind : TaskKind} {deps : List ℕ} {priority : ℕ} {id : ℕ}
    {g : TaskGraph} (hrun : w.graph.addHeld checks kind deps priority = some (id, g)) :
    Does checks w (.addHeld kind deps priority)
      ⟨g, insert id w.held, w.edges ++ deps.map (w.asked id), w.returned⟩
  | release {w : World} {id : ℕ} {g : TaskGraph} (hheld : id ∈ w.held)
    (hrun : w.graph.release checks id = some g) :
    Does checks w (.release id) ⟨g, w.held.erase id, w.edges, w.returned⟩
  | edge {w : World} {source target : ℕ} {g : TaskGraph}
    (hrun : w.graph.edge checks source target = some g) :
    Does checks w (.edge source target) ⟨g, w.held, w.edges ++ [w.asked target source], w.returned⟩
  | pop {w : World} {order : SerialOrder} {popped : Option ℕ} {g : TaskGraph}
    (hrun : w.graph.pop order = some (popped, g)) :
    Does checks w (.pop order) ⟨g, w.held, w.edges, popped.toList ++ w.returned⟩
  | complete {w : World} {id : ℕ} {g : TaskGraph} (hreturned : id ∈ w.returned)
    (hdone : w.graph.isDone id = false) (hrun : w.graph.complete checks id = some g) :
    Does checks w (.complete id) ⟨g, w.held, w.edges, w.returned⟩
  | cancelAll {w : World} :
    Does checks w .cancelAll ⟨w.graph.cancelAll, w.held, w.edges, w.returned⟩

/-- What a thread does to the graph at a time. -/
inductive Call
  /-- An operation of a serial executor. -/
  | serial (op : Op)
  /-- The pool takes what is ready before its workers start. -/
  | drain
  /-- An operation of a worker, under the lock, and the drain after it. -/
  | locked (op : Op)

inductive Step (checks : Bool) : World → Call → World → Prop
  | serial {w w' : World} {op : Op} (hdoes : Does checks w op w') : Step checks w (.serial op) w'
  | drain {w : World} {out : List (ℕ × TaskKind)} {g : TaskGraph}
    (hdrain : w.graph.drain = some (out, g)) :
    Step checks w .drain ⟨g, w.held, w.edges, (out.map Prod.fst).reverse ++ w.returned⟩
  | locked {w w₁ : World} {op : Op} {out : List (ℕ × TaskKind)} {g : TaskGraph}
    (hdoes : Does checks w op w₁) (hdrain : w₁.graph.drain = some (out, g)) :
    Step checks w (.locked op) ⟨g, w₁.held, w₁.edges, (out.map Prod.fst).reverse ++ w₁.returned⟩

/-- The edges that `op` adds keep the count of the task they go into within `u32`, or the build
checks. -/
def Op.Fits (checks : Bool) (w : World) : Op → Prop
  | .add _ deps _ | .addHeld _ deps _ =>
    checks = true ∨ 1 + deps.countP (fun d => ¬w.graph.finished d) < U32
  | .edge source target =>
    checks = true ∨ w.graph.finished source = true ∨ w.graph.waitingOn target + 1 < U32
  | _ => True

/-- The edges that a call adds fit. -/
def Call.Fits (checks : Bool) (w : World) : Call → Prop
  | .serial op | .locked op => op.Fits checks w
  | .drain => True

/-! ### Safety -/

/-- What a world of a run satisfies. -/
structure Safe (w : World) : Prop where
  /-- A task is in the queue once when it is ready and otherwise never. -/
  ready_count : ∀ {t : ℕ} {n : TaskNode}, w.graph.nodes[t]? = some n →
    w.graph.ready.count t = if n.state = .ready then 1 else 0
  ready_known : ∀ {t : ℕ}, t ∈ w.graph.ready → t < w.graph.nodes.length
  /-- A task waits on its guard and on its edges. -/
  waitingOn : ∀ {t : ℕ} {n : TaskNode}, w.graph.nodes[t]? = some n →
    n.waitingOn = w.guard t + w.pending t
  /-- The edges that are not counted are those satisfied at once. -/
  satisfied : ∀ {e : Edge}, e ∈ w.edges → e.counted = false → w.graph.finished e.source = true
  /-- Dropping a guard does not underflow. -/
  release_fits : ∀ {t : ℕ}, t ∈ w.held → 0 < w.graph.waitingOn t
  /-- Lowering the counts of a task's successors, one after the other, does not underflow. -/
  complete_fits : ∀ {f : ℕ} {n : TaskNode} (t : ℕ), w.graph.nodes[f]? = some n →
    n.successors.count t ≤ w.graph.waitingOn t
  /-- `pop` gives no task that waits. -/
  pop_sources : ∀ {order : SerialOrder} {id : ℕ} {g : TaskGraph},
    w.graph.pop order = some (some id, g) →
      ∀ e ∈ w.edges, e.target = id → w.graph.finished e.source = true
  /-- `pop` gives no task again. -/
  pop_fresh : ∀ {order : SerialOrder} {id : ℕ} {g : TaskGraph},
    w.graph.pop order = some (some id, g) → id ∉ w.returned
  returned_nodup : w.returned.Nodup

end HdLang.Sched
