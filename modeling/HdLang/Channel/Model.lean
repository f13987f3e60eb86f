import HdLang.Channel.Deque
import HdLang.Lib.Transition

/-!
# Channels

The channel of `std.task`. Every handle holds the same state, so a copy of one is the state again. A
bang call is the only yield point: `send!` and `recv!` run in turns, each from a check of the loop to
the next wait or to the end of the call, and nothing runs in between. A wait frame completes once
its cell is signalled after the frame was made: the cell counts its signals in an epoch, and the
frame keeps the epoch it saw.
-/

namespace HdLang.Channel

/-! ### Wait cells -/

/-- A cell that frames wait on. -/
structure WaitCell where
  /-- What each signal raises. -/
  epoch : ℕ
  deriving DecidableEq, Repr

/-- A wait on a cell, with the cell's epoch when it was made. -/
structure WaitFrame where
  saved : ℕ
  deriving DecidableEq, Repr

/-- A cell with no waiters. -/
def waitCell : WaitCell := ⟨0⟩

/-- A frame that completes once `cell` is signalled after the call. -/
def waitFrame (cell : WaitCell) : WaitFrame := ⟨cell.epoch⟩

/-- Wakes every frame waiting on `cell`. -/
def waitSignal (cell : WaitCell) : WaitCell := ⟨cell.epoch + 1⟩

/-- The frame over `cell` is complete. -/
def WaitFrame.complete (frame : WaitFrame) (cell : WaitCell) : Bool := cell.epoch ≠ frame.saved

/-! ### The channel -/

/-- What a turn of a call ends with. -/
inductive Turn (α : Type)
  | returns (value : α)
  | waits (frame : WaitFrame)
  deriving DecidableEq, Repr

structure ChannelState (T : Type) where
  items : Deque T
  capacity : ℕ
  closed : Bool
  readers : WaitCell
  writers : WaitCell
  deriving DecidableEq, Repr

variable {T : Type}

/-- A new channel that holds at most `capacity` items. -/
def channel (capacity : ℕ) : ChannelState T where
  items := .new
  capacity := if capacity = 0 then 1 else capacity
  closed := false
  readers := waitCell
  writers := waitCell

/-- The message of a `send!` to a closed channel. -/
def sendClosed : Panic := .explicitPanic "send on a closed channel"

namespace ChannelState

variable (s : ChannelState T)

/-- A turn of `Sender.send!`. -/
def send (value : T) : Except Panic (ChannelState T × Turn Unit) :=
  if !s.closed && s.items.len ≥ s.capacity then
    .ok (s, .waits (waitFrame s.writers))
  else if s.closed then
    .error sendClosed
  else do
    let items ← s.items.pushBack value
    .ok ({ s with items := items, readers := waitSignal s.readers }, .returns ())

def close : ChannelState T :=
  if !s.closed then
    { s with closed := true, readers := waitSignal s.readers, writers := waitSignal s.writers }
  else s

/-- A turn of `Receiver.recv!`. -/
def recv : Except Panic (ChannelState T × Turn (Option T)) := do
  let (popped, items) ← s.items.popFront
  let s := { s with items := items }
  match popped with
  | some item => .ok ({ s with writers := waitSignal s.writers }, .returns (some item))
  | none => if s.closed then .ok (s, .returns none) else .ok (s, .waits (waitFrame s.readers))

/-! ### What a turn does -/

variable {s} {queue : List T}

/-- A `send!` waits on a full open channel, panics on a closed one and puts its value at the back of
any other. -/
theorem send_cases (hitems : s.items.Holds queue) (value : T) :
    (s.closed = false ∧ s.capacity ≤ queue.length ∧
      s.send value = .ok (s, .waits (waitFrame s.writers))) ∨
    (s.closed = true ∧ s.send value = .error sendClosed) ∨
    (s.closed = false ∧ queue.length < s.capacity ∧ ∃ items, items.Holds (queue ++ [value]) ∧
      s.send value = .ok ({ s with items := items, readers := waitSignal s.readers },
        .returns ())) := by
  have hlen : s.items.len = queue.length := hitems.count
  cases hclosed : s.closed with
  | true => exact .inr (.inl ⟨rfl, by simp [send, hclosed]⟩)
  | false =>
    by_cases hfull : s.capacity ≤ queue.length
    · exact .inl ⟨rfl, hfull, by simp [send, hclosed, hlen, hfull]⟩
    · obtain ⟨items, hpush, hqueue⟩ := hitems.pushBack value
      exact .inr (.inr ⟨rfl, by omega, items, hqueue, by simp [send, hclosed, hlen, hfull, hpush]⟩)

/-- A `recv!` takes the front of the queue, and of an empty channel it gives nothing when the
channel is closed and waits otherwise. -/
theorem recv_cases (hitems : s.items.Holds queue) :
    (queue = [] ∧ s.closed = true ∧ s.recv = .ok (s, .returns none)) ∨
    (queue = [] ∧ s.closed = false ∧ s.recv = .ok (s, .waits (waitFrame s.readers))) ∨
    (∃ item rest items, queue = item :: rest ∧ items.Holds rest ∧
      s.recv = .ok ({ s with items := items, writers := waitSignal s.writers },
        .returns (some item))) := by
  cases queue with
  | nil =>
    have hrecv : s.recv =
        if s.closed then .ok (s, .returns none) else .ok (s, .waits (waitFrame s.readers)) := by
      rw [recv, hitems.popFront_nil]
      rfl
    cases hclosed : s.closed with
    | true => exact .inl ⟨rfl, rfl, hrecv.trans (if_pos hclosed)⟩
    | false => exact .inr (.inl ⟨rfl, rfl, hrecv.trans (if_neg (by simp [hclosed]))⟩)
  | cons item rest =>
    obtain ⟨items, hpop, hrest⟩ := hitems.popFront_cons
    exact .inr (.inr ⟨item, rest, items, rfl, hrest, by simp [recv, hpop]⟩)

end ChannelState

end HdLang.Channel

/-!
## Runs of a channel

A `World` is a channel with the tasks that use it: each is at its own work or at a wait of a call. A
step is a turn of one task: it calls `send!`, `recv!` or `close`, it goes on after its wait when its
frame is complete, or it is cancelled at the wait, whether it was woken already or not. The log keeps
what the calls did, in order. A task that panics takes no more steps; the others may, which covers
every order in which a panic can end the program.

`Fifo` is what a channel is for: a bounded queue that can be closed, with one step for each event.
`Delivers` is what holds of every world of a run.
-/

namespace HdLang.Channel

/-! ### Events -/

/-- What a call did. -/
inductive Event (ι T : Type)
  /-- A `send!` completed. -/
  | sent (task : ι) (value : T)
  /-- A `recv!` gave an item. -/
  | received (task : ι) (value : T)
  /-- A `recv!` gave `.None`. -/
  | drained (task : ι)
  | closed (task : ι)
  | panicked (task : ι) (panic : Panic)

section Logs

variable {ι T : Type}

/-- The items sent, in order of completed sends. -/
def sent : List (Event ι T) → List T
  | [] => []
  | .sent _ value :: log => value :: sent log
  | _ :: log => sent log

/-- The items received, in order of receipt. -/
def received : List (Event ι T) → List T
  | [] => []
  | .received _ value :: log => value :: received log
  | _ :: log => received log

end Logs

/-! ### What a channel is for -/

/-- A queue, front first, that can be closed. -/
structure Fifo (T : Type) where
  queue : List T
  closed : Bool

namespace Fifo

variable {ι T : Type}

def start : Fifo T := ⟨[], false⟩

/-- The events of a queue that holds at most `room` items. -/
inductive Step (room : ℕ) : Fifo T → Event ι T → Fifo T → Prop
  | sent {queue : List T} (task : ι) (value : T) (hroom : queue.length < room) :
    Step room ⟨queue, false⟩ (.sent task value) ⟨queue ++ [value], false⟩
  | received {queue : List T} {closed : Bool} (task : ι) (value : T) :
    Step room ⟨value :: queue, closed⟩ (.received task value) ⟨queue, closed⟩
  | drained (task : ι) : Step room ⟨[], true⟩ (.drained task) ⟨[], true⟩
  | closed {queue : List T} {closed : Bool} (task : ι) :
    Step room ⟨queue, closed⟩ (.closed task) ⟨queue, true⟩
  | panicked {queue : List T} (task : ι) :
    Step room ⟨queue, true⟩ (.panicked task sendClosed) ⟨queue, true⟩

end Fifo

/-! ### Worlds and steps -/

/-- Where a task is. -/
inductive Task (T : Type)
  /-- At its own work, or finished. -/
  | idle
  | sending (value : T) (frame : WaitFrame)
  | receiving (frame : WaitFrame)
  | panicked (panic : Panic)

structure World (ι T : Type) where
  state : ChannelState T
  tasks : ι → Task T
  log : List (Event ι T)

/-- What a task does next. -/
inductive Act (ι T : Type)
  | send (task : ι) (value : T)
  | recv (task : ι)
  | close (task : ι)
  /-- The task goes on after its wait. -/
  | resume (task : ι)
  | cancel (task : ι)

namespace World

variable {ι T : Type} [DecidableEq ι]

def start (capacity : ℕ) : World ι T := ⟨channel capacity, fun _ => .idle, []⟩

variable (w : World ι T) (t : ι)

/-- A turn of `send!` in task `t`. -/
def sendTurn (value : T) : World ι T :=
  match w.state.send value with
  | .ok (s, .returns _) => ⟨s, Function.update w.tasks t .idle, w.log ++ [.sent t value]⟩
  | .ok (s, .waits frame) => ⟨s, Function.update w.tasks t (.sending value frame), w.log⟩
  | .error p => ⟨w.state, Function.update w.tasks t (.panicked p), w.log ++ [.panicked t p]⟩

/-- A turn of `recv!` in task `t`. -/
def recvTurn : World ι T :=
  match w.state.recv with
  | .ok (s, .returns (some item)) =>
    ⟨s, Function.update w.tasks t .idle, w.log ++ [.received t item]⟩
  | .ok (s, .returns none) => ⟨s, Function.update w.tasks t .idle, w.log ++ [.drained t]⟩
  | .ok (s, .waits frame) => ⟨s, Function.update w.tasks t (.receiving frame), w.log⟩
  | .error p => ⟨w.state, Function.update w.tasks t (.panicked p), w.log ++ [.panicked t p]⟩

/-- The task waits. -/
def Waits : Prop :=
  match w.tasks t with
  | .sending .. | .receiving .. => True
  | .idle | .panicked .. => False

/-- The task waits and its frame is complete. -/
def CanRun : Prop :=
  match w.tasks t with
  | .sending _ frame => frame.complete w.state.writers = true
  | .receiving frame => frame.complete w.state.readers = true
  | .idle | .panicked .. => False

end World

section Steps

variable {ι T : Type} [DecidableEq ι]

inductive Step : World ι T → Act ι T → World ι T → Prop
  | send {w : World ι T} {t : ι} (value : T) (hidle : w.tasks t = .idle) :
    Step w (.send t value) (w.sendTurn t value)
  | recv {w : World ι T} {t : ι} (hidle : w.tasks t = .idle) : Step w (.recv t) (w.recvTurn t)
  | close {w : World ι T} {t : ι} (hidle : w.tasks t = .idle) :
    Step w (.close t) ⟨w.state.close, w.tasks, w.log ++ [.closed t]⟩
  | resumeSend {w : World ι T} {t : ι} {value : T} {frame : WaitFrame}
    (htask : w.tasks t = .sending value frame) (hcan : w.CanRun t) :
    Step w (.resume t) (w.sendTurn t value)
  | resumeRecv {w : World ι T} {t : ι} {frame : WaitFrame} (htask : w.tasks t = .receiving frame)
    (hcan : w.CanRun t) : Step w (.resume t) (w.recvTurn t)
  | cancel {w : World ι T} {t : ι} (hwaits : w.Waits t) :
    Step w (.cancel t) ⟨w.state, Function.update w.tasks t .idle, w.log⟩

/-- The act is a turn of a `send!`. -/
def World.Sends (w : World ι T) (t : ι) : Act ι T → Prop
  | .send u _ => u = t
  | .resume u => u = t ∧ ∃ value frame, w.tasks t = .sending value frame
  | _ => False

/-! ### Delivery -/

/-- What a world of a run of a channel made with `capacity` satisfies. -/
structure Delivers (capacity : ℕ) (w : World ι T) : Prop where
  /-- The queue is what was sent and not yet received, and it is within the capacity. -/
  queue : ∃ queue, w.state.items.Holds queue ∧ sent w.log = received w.log ++ queue ∧
    queue.length ≤ max capacity 1
  closed : w.state.closed = true ↔ ∃ t, .closed t ∈ w.log
  /-- No send completes after a close. -/
  sent_closed : ∀ {before after : List (Event ι T)} {t : ι},
    w.log = before ++ .closed t :: after → sent after = []
  /-- `.None` comes once the channel is closed and all that was sent was received. -/
  drained : ∀ {before after : List (Event ι T)} {t : ι},
    w.log = before ++ .drained t :: after →
      (∃ u, .closed u ∈ before) ∧ received before = sent before
  /-- A call panics only by sending on a closed channel. -/
  panicked : ∀ {before after : List (Event ι T)} {t : ι} {p : Panic},
    w.log = before ++ .panicked t p :: after → p = sendClosed ∧ ∃ u, .closed u ∈ before
  /-- Once the channel is closed every sender that waits can go on. -/
  sender_closed : w.state.closed = true → ∀ {t : ι} {value : T} {frame : WaitFrame},
    w.tasks t = .sending value frame → w.CanRun t
  /-- Every turn of a `send!` then panics. -/
  send_closed : w.state.closed = true → ∀ {t : ι} {a : Act ι T} {w' : World ι T},
    w.Sends t a → Step w a w' → w'.tasks t = .panicked sendClosed
  /-- A receiver that cannot run waits on an empty open channel. -/
  receiver_waits : ∀ {t : ι} {frame : WaitFrame}, w.tasks t = .receiving frame → ¬w.CanRun t →
    w.state.items.len = 0 ∧ w.state.closed = false
  /-- A sender that cannot run waits on a full open channel. -/
  sender_waits : ∀ {t : ι} {value : T} {frame : WaitFrame}, w.tasks t = .sending value frame →
    ¬w.CanRun t → w.state.items.len = max capacity 1 ∧ w.state.closed = false

end Steps

end HdLang.Channel
