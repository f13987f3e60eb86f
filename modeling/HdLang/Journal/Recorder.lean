import HdLang.Journal.Events

/-!
# The recorder

`crates/hd_run/src/journal.rs`: the `Recorder` that an engine's host import dispatch writes rows
through, and runs of its calls. The lengths are those of buffers in memory, so that their sums fit a
`usize`; the other counters are `u32` and `u64` words, which wrap as in a release build.
-/

namespace HdLang.Journal

open LittleEndian

/-- The format number of a `Header` row. -/
def FORMAT : UInt64 := 1

inductive State
  | on
  /-- Past the cap; whether the notice was taken. -/
  | off (told : Bool)
  deriving DecidableEq, Repr

/-- Writes one execution's journal in memory. -/
structure Recorder where
  bytes : Bytes
  cap : UInt64
  /-- The next row's event index. -/
  next : UInt64
  /-- Per call site of the engine, its method number plus one; 0 until its first call names it. -/
  sites : List UInt32
  /-- The number of methods named so far. -/
  methods : UInt32
  /-- The payload of the row being written. -/
  row : Bytes
  /-- The polls of the input that runs. -/
  polls : UInt64
  state : State
  deriving DecidableEq, Repr

namespace Recorder

/-- Frames the row in `row` as `kind`, or stops recording when it would pass the cap. -/
def push (r : Recorder) (kind : RowKind) : Recorder :=
  let len := r.row.length
  let size := 1 + ulebLen r.next + ulebLen (UInt64.ofNat len) + len + 4
  if r.bytes.length + size > r.cap.toNat then
    { r with state := .off false, bytes := [], sites := [], row := [] }
  else
    { r with
      bytes := appendParts r.bytes kind r.next r.row
      next := r.next + 1
      row := [] }

/-- A journal of at most `cap` bytes, which starts with its `Header` row. -/
def new (cap : UInt64) (execution : U128) : Recorder :=
  let r : Recorder :=
    { bytes := [], cap, next := 0, sites := [], methods := 0, row := [], polls := 0, state := .on }
  push { r with row := putUleb r.row FORMAT ++ toLe 16 execution.toNat } .header

/-- The journal so far, or `none` once recording stopped at the cap. -/
def journal (r : Recorder) : Option Bytes := if r.state = .on then some r.bytes else none

/-- Changes the cap; a journal already past it stops at its next row. -/
def setCap (r : Recorder) (cap : UInt64) : Recorder := { r with cap }

/-- True once, the first time it is asked after recording stopped. -/
def takeNotice (r : Recorder) : Bool × Recorder :=
  if r.state = .off false then (true, { r with state := .off true }) else (false, r)

/-- `sites.resize(len, 0)` when that is longer. -/
def resize (sites : List UInt32) (len : ℕ) : List UInt32 :=
  sites ++ List.replicate (len - sites.length) 0

/-- Writes the method number of a call through `site`, and its names when that is its first. -/
def callMethod (r : Recorder) (site : ℕ) (module name : String) : Recorder :=
  let sites := if r.sites.length ≤ site then resize r.sites (site + 1) else r.sites
  match sites[site]? with
  | some n =>
    if n = 0 then
      let row := putUleb r.row r.methods.toUInt64
      let row := putUleb row (UInt64.ofNat (asBytes module).length) ++ asBytes module
      let row := putUleb row (UInt64.ofNat (asBytes name).length) ++ asBytes name
      { r with row, methods := r.methods + 1, sites := sites.set site (r.methods + 1) }
    else { r with row := putUleb r.row (n - 1).toUInt64, sites }
  | none => { r with sites }

/-- Writes the arguments of a call. -/
def putRequest (requestDigest : Bytes → UInt64) (out request : Bytes) : Bytes :=
  let out := putUleb out (UInt64.ofNat request.length)
  if request.length ≤ 8 then out ++ request else out ++ toLe 8 (requestDigest request).toNat

section Writers

variable (requestDigest : Bytes → UInt64) (hash128 : Bytes → U128) (r : Recorder)

/-- A host call with the arguments `request` that returned `value` and `result`, through the
engine's call site `site` for the import `module` `name`. -/
def call (site : ℕ) (module name : String) (request : Bytes) (value : Value)
    (result : Option Bytes) : Recorder :=
  if r.state ≠ .on then r
  else
    let r := r.callMethod site module name
    push { r with row := putReply (putRequest requestDigest r.row request) value result } .call

/-- A `.finish(handle)` call that returned `value` and `result`. -/
def finish (handle : UInt32) (value : Value) (result : Option Bytes) : Recorder :=
  if r.state = .on then
    push { r with row := putReply (putUleb r.row handle.toUInt64) value result } .finish
  else r

/-- An `hd:rt` `block` call that returned `handles`. -/
def block (handles : List UInt32) : Recorder :=
  if r.state = .on then push { r with row := putHandles r.row handles } .block else r

/-- An `hd:rt` `abort(handle)` call. -/
def abort (handle : UInt32) : Recorder :=
  if r.state = .on then push { r with row := putUleb r.row handle.toUInt64 } .abort else r

/-- One poll of the input that runs. -/
def poll : Recorder := { r with polls := r.polls + 1 }

/-- A wake of the input with `handles`, after its polls so far. -/
def wake (handles : List UInt32) : Recorder :=
  if r.state = .on then push { r with row := putHandles (putUleb r.row r.polls) handles } .wake
  else r

/-- The host cancels the input's root, after its polls so far. -/
def cancel : Recorder :=
  if r.state = .on then push { r with row := putUleb r.row r.polls } .cancel else r

/-- A REPL input numbered `number` starts, with its source text and module bytes. -/
def input (number : UInt32) (source module : Bytes) : Recorder :=
  let r := { r with polls := 0 }
  if r.state = .on then
    let row := putUleb r.row number.toUInt64
    push { r with row := row ++ toLe 16 (hash128 source).toNat ++ toLe 16 (hash128 module).toNat }
      .input
  else r

/-- The tag byte of an `End` row, and the status after it. -/
def endBytes : End → Bytes
  | .exit status => [0, status]
  | .trapped => [1]
  | .stopped => [2]
  | .cancelled => [3]
  | .failed => [4]

/-- The input that ran ends with `end'`. -/
def finished (end' : End) : Recorder :=
  if r.state = .on then push { r with row := r.row ++ endBytes end' } .«end» else r

end Writers

end Recorder

/-! ### Runs -/

/-- A call of the recorder. -/
inductive Op
  | call (site : ℕ) (module name : String) (request : Bytes) (value : Value)
    (result : Option Bytes)
  | finish (handle : UInt32) (value : Value) (result : Option Bytes)
  | block (handles : List UInt32)
  | abort (handle : UInt32)
  | poll
  | wake (handles : List UInt32)
  | cancel
  | input (number : UInt32) (source module : Bytes)
  | «end» (end' : End)
  | takeNotice
  | setCap (cap : UInt64)
  deriving DecidableEq, Repr

section Runs

variable (requestDigest : Bytes → UInt64) (hash128 : Bytes → U128)

def Recorder.apply (r : Recorder) : Op → Recorder
  | .call site module name request value result =>
    r.call requestDigest site module name request value result
  | .finish handle value result => r.finish handle value result
  | .block handles => r.block handles
  | .abort handle => r.abort handle
  | .poll => r.poll
  | .wake handles => r.wake handles
  | .cancel => r.cancel
  | .input number source module => r.input hash128 number source module
  | .«end» end' => r.finished end'
  | .takeNotice => r.takeNotice.2
  | .setCap cap => r.setCap cap

/-- The recorder after the calls, from its start. -/
def record (cap : UInt64) (execution : U128) (ops : List Op) : Recorder :=
  ops.foldl (Recorder.apply requestDigest hash128) (Recorder.new cap execution)

/-- What a call records, when the input that runs has been polled `polls` times. -/
def Op.event (polls : UInt64) : Op → Option Event
  | .call _ module name request value result =>
    some (.call module name (Request.of requestDigest request) value result)
  | .finish handle value result => some (.finish handle value result)
  | .block handles => some (.block handles)
  | .abort handle => some (.abort handle)
  | .poll => none
  | .wake handles => some (.wake polls handles)
  | .cancel => some (.cancel polls)
  | .input number source module => some (.input number (hash128 source) (hash128 module))
  | .«end» end' => some (.«end» end')
  | .takeNotice => none
  | .setCap _ => none

/-- The polls of the input that runs after a call. -/
def Op.polls (polls : UInt64) : Op → UInt64
  | .poll => polls + 1
  | .input _ _ _ => 0
  | _ => polls

/-- The events of the calls, in their order. -/
def events : UInt64 → List Op → List Event
  | _, [] => []
  | polls, op :: ops =>
    (op.event requestDigest hash128 polls).toList ++ events (op.polls polls) ops

end Runs

end HdLang.Journal
