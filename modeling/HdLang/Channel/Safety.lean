import HdLang.Channel.Model

/-!
# Channels deliver

`Inv` ties a world to the queue: its log is a run of the bounded queue, and a wait frame that is not
complete was made when the queue was empty and open (a receiver's) or full and open (a sender's), as
every change that ends this signals the cell. Each turn keeps it (`Inv.step`), and every world of a run
delivers (`channel_delivers`).
-/

namespace HdLang.Channel

open Function Nat ChannelState Transition.Trace

/-! ### Logs -/

section Logs

variable {ι T : Type}

@[simp] theorem sent_append (log log' : List (Event ι T)) :
    sent (log ++ log') = sent log ++ sent log' := by
  induction log with
  | nil => rfl
  | cons e log ih => cases e <;> simp [sent, ih]

@[simp] theorem received_append (log log' : List (Event ι T)) :
    received (log ++ log') = received log ++ received log' := by
  induction log with
  | nil => rfl
  | cons e log ih => cases e <;> simp [received, ih]

end Logs

/-! ### The bounded queue -/

namespace Fifo

open Transition

variable {ι T : Type} {room : ℕ} {q q' : Fifo T} {log : List (Event ι T)} {e : Event ι T}

/-- What left the queue and what is in it is what was in it and what came. -/
theorem trace_queue (htrace : Trace (Step room) q log q') :
    q.queue ++ sent log = received log ++ q'.queue := by
  induction htrace with
  | nil => simp [sent, received]
  | cons hstep _ ih => cases hstep <;> simpa [sent, received] using ih

theorem step_length (hq : q.queue.length ≤ room) (hstep : Step room q e q') :
    q'.queue.length ≤ room := by
  cases hstep with
  | sent task value hroom => simpa using succ_le_of_lt hroom
  | received task value => exact le_of_succ_le hq
  | drained task => exact hq
  | closed task => exact hq
  | panicked task => exact hq

theorem step_closed (hq : q.closed = true) (hstep : Step room q e q') : q'.closed = true := by
  cases hstep with
  | sent task value hroom => cases hq
  | received task value => exact hq
  | drained task => rfl
  | closed task => rfl
  | panicked task => rfl

theorem sent_of_closed (hq : q.closed = true) (htrace : Trace (Step room) q log q') :
    sent log = [] := by
  induction htrace with
  | nil => rfl
  | cons hstep _ ih =>
    have hrest := ih (step_closed hq hstep)
    cases hstep with
    | sent task value hroom => cases hq
    | received task value => exact hrest
    | drained task => exact hrest
    | closed task => exact hrest
    | panicked task => exact hrest

/-- A queue is closed by a `closed` event and by nothing else. -/
theorem closed_iff (htrace : Trace (Step room) q log q') :
    q'.closed = true ↔ q.closed = true ∨ ∃ t, .closed t ∈ log := by
  induction htrace with
  | nil => simp
  | cons hstep _ ih =>
    rw [ih]
    cases hstep <;> simp

theorem closed_of_start (htrace : Trace (Step room) start log q) :
    q.closed = true ↔ ∃ t, .closed t ∈ log := by
  rw [closed_iff htrace]
  simp [start]

end Fifo

variable {ι T : Type}

/-! ### The invariant -/

open Transition in
/-- A world of a run whose channel holds `queue`. -/
structure Inv (capacity : ℕ) (w : World ι T) (queue : List T) : Prop where
  items : w.state.items.Holds queue
  room : w.state.capacity = max capacity 1
  log : Trace (Fifo.Step (max capacity 1)) Fifo.start w.log ⟨queue, w.state.closed⟩
  /-- A receiver's frame is of the present or of the past, and of the present only when the queue is
  empty and open. -/
  receiving : ∀ {t : ι} {frame : WaitFrame}, w.tasks t = .receiving frame →
    frame.saved < w.state.readers.epoch ∨
      frame.saved = w.state.readers.epoch ∧ queue = [] ∧ w.state.closed = false
  sending : ∀ {t : ι} {value : T} {frame : WaitFrame}, w.tasks t = .sending value frame →
    frame.saved < w.state.writers.epoch ∨ frame.saved = w.state.writers.epoch ∧
      w.state.capacity ≤ queue.length ∧ w.state.closed = false

namespace Inv

variable {capacity : ℕ} {w : World ι T} {queue : List T}

theorem start : Inv capacity (World.start capacity : World ι T) [] where
  items := .new
  room := by
    show (if capacity = 0 then 1 else capacity) = max capacity 1
    split <;> omega
  log := .nil _
  receiving h := by cases h
  sending h := by cases h

/-- An event that changes neither the queue nor whether it is closed. -/
theorem event (hw : Inv capacity w queue) {e : Event ι T}
    (hstep : Fifo.Step (max capacity 1) ⟨queue, w.state.closed⟩ e ⟨queue, w.state.closed⟩) :
    Inv capacity ⟨w.state, w.tasks, w.log ++ [e]⟩ queue where
  items := hw.items
  room := hw.room
  log := hw.log.snoc hstep
  receiving := hw.receiving
  sending := hw.sending

/-! #### Changes of the queue -/

variable {t : ι} {frame : WaitFrame}

/-- A receiver's frame is complete after a signal of its cell. -/
theorem receiving_lt (hw : Inv capacity w queue) (h : w.tasks t = .receiving frame)
    : frame.saved < (waitSignal w.state.readers).epoch := by
  obtain hlt | ⟨heq, -⟩ := hw.receiving h
  · exact lt_succ_of_lt hlt
  · exact lt_succ_of_le (Nat.le_of_eq heq)

variable {value : T}

theorem sending_lt (hw : Inv capacity w queue) (h : w.tasks t = .sending value frame)
    : frame.saved < (waitSignal w.state.writers).epoch := by
  obtain hlt | ⟨heq, -⟩ := hw.sending h
  · exact lt_succ_of_lt hlt
  · exact lt_succ_of_le (Nat.le_of_eq heq)

variable {items : Deque T}

/-- An item goes to the back of the queue: the receivers are woken, and a sender whose frame is of
the present saw a full queue, which this one was not. -/
theorem push (hw : Inv capacity w queue) (t : ι) (hitems : items.Holds (queue ++ [value]))
    (hopen : w.state.closed = false) (hroom : queue.length < w.state.capacity) :
    Inv capacity ⟨{ w.state with items := items, readers := waitSignal w.state.readers }, w.tasks,
      w.log ++ [.sent t value]⟩ (queue ++ [value]) where
  items := hitems
  room := hw.room
  log := by
    have hlog := hw.log
    rw [hopen] at hlog
    show Transition.Trace _ _ _ (⟨_, w.state.closed⟩ : Fifo T)
    rw [hopen]
    exact hlog.snoc (.sent t value (hw.room ▸ hroom))
  receiving h := .inl (hw.receiving_lt h)
  sending h := by
    obtain hlt | ⟨-, hfull, -⟩ := hw.sending h
    · exact .inl hlt
    · exact absurd hfull (Nat.not_le_of_lt hroom)

/-- The front of the queue goes: the senders are woken, and a receiver whose frame is of the present
saw an empty queue. -/
theorem pop {item : T} {rest : List T} (hw : Inv capacity w (item :: rest)) (t : ι)
    (hitems : items.Holds rest) :
    Inv capacity ⟨{ w.state with items := items, writers := waitSignal w.state.writers }, w.tasks,
      w.log ++ [.received t item]⟩ rest where
  items := hitems
  room := hw.room
  log := hw.log.snoc (.received t item)
  receiving h := by
    obtain hlt | ⟨-, hnil, -⟩ := hw.receiving h
    · exact .inl hlt
    · cases hnil
  sending h := .inl (hw.sending_lt h)

theorem close (hw : Inv capacity w queue) (t : ι) :
    Inv capacity ⟨w.state.close, w.tasks, w.log ++ [.closed t]⟩ queue := by
  unfold ChannelState.close
  cases hclosed : w.state.closed with
  | true =>
    have hevent := hw.event (e := .closed t) (by rw [hclosed]; exact .closed t)
    simpa using hevent
  | false =>
    exact
      { items := hw.items
        room := hw.room
        log := hw.log.snoc (.closed t)
        receiving := fun h => .inl (hw.receiving_lt h)
        sending := fun h => .inl (hw.sending_lt h) }

/-! #### What the invariant says -/

theorem length_le (hw : Inv capacity w queue) : queue.length ≤ max capacity 1 :=
  hw.log.invariant (I := fun q => q.queue.length ≤ max capacity 1) (Nat.zero_le _) Fifo.step_length

theorem complete_of_lt {cell : WaitCell} (h : frame.saved < cell.epoch) :
    frame.complete cell = true :=
  decide_eq_true (Nat.ne_of_gt h)

theorem canRun_of_closed (hw : Inv capacity w queue) (hclosed : w.state.closed = true)
    (htask : w.tasks t = .sending value frame) : w.CanRun t := by
  unfold World.CanRun
  rw [htask]
  obtain hlt | ⟨-, -, hopen⟩ := hw.sending htask
  · exact complete_of_lt hlt
  · rw [hclosed] at hopen
    cases hopen

theorem receiver_waits (hw : Inv capacity w queue) (htask : w.tasks t = .receiving frame)
    (hcan : ¬w.CanRun t) :
    w.state.items.len = 0 ∧ w.state.closed = false := by
  unfold World.CanRun at hcan
  rw [htask] at hcan
  obtain hlt | ⟨-, rfl, hopen⟩ := hw.receiving htask
  · exact absurd (complete_of_lt hlt) hcan
  · exact ⟨hw.items.count, hopen⟩

theorem sender_waits (hw : Inv capacity w queue) (htask : w.tasks t = .sending value frame)
    (hcan : ¬w.CanRun t) :
    w.state.items.len = max capacity 1 ∧ w.state.closed = false := by
  unfold World.CanRun at hcan
  rw [htask] at hcan
  obtain hlt | ⟨-, hfull, hopen⟩ := hw.sending htask
  · exact absurd (complete_of_lt hlt) hcan
  · refine ⟨?_, hopen⟩
    calc
      w.state.items.len = queue.length := hw.items.count
      _ = max capacity 1 := Nat.le_antisymm hw.length_le (hw.room ▸ hfull)

/-! #### Changes of one task -/

variable [DecidableEq ι]

/-- One task goes elsewhere, to a wait only if the queue is as that wait requires. -/
theorem move (hw : Inv capacity w queue) (t : ι) {task : Task T}
    (hreceiving : ∀ {frame : WaitFrame}, task = .receiving frame →
      frame = waitFrame w.state.readers ∧ queue = [] ∧ w.state.closed = false)
    (hsending : ∀ {value : T} {frame : WaitFrame}, task = .sending value frame →
      frame = waitFrame w.state.writers ∧ w.state.capacity ≤ queue.length ∧
        w.state.closed = false) :
    Inv capacity ⟨w.state, Function.update w.tasks t task, w.log⟩ queue where
  items := hw.items
  room := hw.room
  log := hw.log
  receiving {u frame} h := by
    change Function.update w.tasks t task u = _ at h
    by_cases hu : u = t
    · obtain ⟨hframe, hqueue⟩ := hreceiving (by simpa [hu] using h)
      exact .inr ⟨by rw [hframe]; rfl, hqueue⟩
    · exact hw.receiving (by rwa [update_of_ne hu] at h)
  sending {u value frame} h := by
    change Function.update w.tasks t task u = _ at h
    by_cases hu : u = t
    · obtain ⟨hframe, hqueue⟩ := hsending (by simpa [hu] using h)
      exact .inr ⟨by rw [hframe]; rfl, hqueue⟩
    · exact hw.sending (by rwa [update_of_ne hu] at h)

theorem idle (hw : Inv capacity w queue) (t : ι) :
    Inv capacity ⟨w.state, Function.update w.tasks t .idle, w.log⟩ queue :=
  hw.move t (fun h => by cases h) (fun h => by cases h)

theorem panic (hw : Inv capacity w queue) (t : ι) (p : Panic) :
    Inv capacity ⟨w.state, Function.update w.tasks t (.panicked p), w.log⟩ queue :=
  hw.move t (fun h => by cases h) (fun h => by cases h)

/-! #### Turns -/

theorem sendTurn (hw : Inv capacity w queue) (t : ι) (value : T) :
    ∃ queue', Inv capacity (w.sendTurn t value) queue' := by
  unfold World.sendTurn
  obtain ⟨hopen, hfull, hsend⟩ | ⟨hclosed, hsend⟩ | ⟨hopen, hroom, items, hitems, hsend⟩ :=
    send_cases hw.items value
  · rw [hsend]
    exact ⟨queue, hw.move t (fun h => by cases h) fun h => by cases h; exact ⟨rfl, hfull, hopen⟩⟩
  · rw [hsend]
    have hevent := hw.event (e := .panicked t sendClosed) (by rw [hclosed]; exact .panicked t)
    exact ⟨queue, hevent.panic t sendClosed⟩
  · rw [hsend]
    exact ⟨_, (hw.push t hitems hopen hroom).idle t⟩

theorem recvTurn (hw : Inv capacity w queue) (t : ι) :
    ∃ queue', Inv capacity (w.recvTurn t) queue' := by
  unfold World.recvTurn
  obtain ⟨rfl, hclosed, hrecv⟩ | ⟨rfl, hopen, hrecv⟩ | ⟨item, rest, items, rfl, hitems, hrecv⟩ :=
    recv_cases hw.items
  · rw [hrecv]
    have hevent := hw.event (e := .drained t) (by rw [hclosed]; exact .drained t)
    exact ⟨[], hevent.idle t⟩
  · rw [hrecv]
    exact ⟨[], hw.move t (fun h => by cases h; exact ⟨rfl, rfl, hopen⟩) fun h => by cases h⟩
  · rw [hrecv]
    exact ⟨rest, (hw.pop t hitems).idle t⟩

variable {a : Act ι T} {w' : World ι T}

section

variable (hw : Inv capacity w queue)
include hw

/-- **The invariant is kept** by every step. -/
theorem step (hstep : Step w a w') :
    ∃ queue', Inv capacity w' queue' := by
  cases hstep with
  | send value hidle => exact hw.sendTurn _ value
  | recv hidle => exact hw.recvTurn _
  | close hidle => exact ⟨queue, hw.close _⟩
  | resumeSend htask hcan => exact hw.sendTurn _ _
  | resumeRecv htask hcan => exact hw.recvTurn _
  | cancel hwaits => exact ⟨queue, hw.idle _⟩

/-! #### Delivery -/

/-- A turn of a `send!` panics on a closed channel. -/
theorem sendTurn_closed (hclosed : w.state.closed = true) (t : ι) (value : T)
    : (w.sendTurn t value).tasks t = .panicked sendClosed := by
  unfold World.sendTurn
  obtain ⟨hopen, -⟩ | ⟨-, hsend⟩ | ⟨hopen, -⟩ := send_cases hw.items value
  · rw [hclosed] at hopen
    cases hopen
  · rw [hsend]
    exact update_self ..
  · rw [hclosed] at hopen
    cases hopen

theorem sends_closed (hclosed : w.state.closed = true) (hsends : w.Sends t a)
    (hstep : Step w a w') :
    w'.tasks t = .panicked sendClosed := by
  cases hstep with
  | send value hidle =>
    obtain rfl : _ = t := hsends
    exact hw.sendTurn_closed hclosed _ value
  | recv hidle => exact absurd hsends id
  | close hidle => exact absurd hsends id
  | resumeSend htask hcan =>
    obtain ⟨rfl, -⟩ := hsends
    exact hw.sendTurn_closed hclosed _ _
  | resumeRecv htask hcan =>
    obtain ⟨rfl, value, frame, hsending⟩ := hsends
    rw [htask] at hsending
    cases hsending
  | cancel hwaits => exact absurd hsends id

theorem delivers : Delivers capacity w where
  queue := ⟨queue, hw.items, Fifo.trace_queue hw.log, hw.length_le⟩
  closed := Fifo.closed_of_start hw.log
  sent_closed {before after t} hlog := by
    obtain ⟨q, q', -, hstep, hafter⟩ := split (hlog ▸ hw.log)
    refine Fifo.sent_of_closed ?_ hafter
    cases hstep
    rfl
  drained {before after t} hlog := by
    obtain ⟨q, q', hbefore, hstep, -⟩ := split (hlog ▸ hw.log)
    cases hstep with
    | drained task =>
      have hqueue := Fifo.trace_queue hbefore
      exact ⟨(Fifo.closed_of_start hbefore).mp rfl, by simpa [Fifo.start] using hqueue.symm⟩
  panicked {before after t p} hlog := by
    obtain ⟨q, q', hbefore, hstep, -⟩ := split (hlog ▸ hw.log)
    cases hstep with
    | panicked task => exact ⟨rfl, (Fifo.closed_of_start hbefore).mp rfl⟩
  sender_closed hclosed := hw.canRun_of_closed hclosed
  send_closed hclosed := hw.sends_closed hclosed
  receiver_waits := hw.receiver_waits
  sender_waits := hw.sender_waits

end

end Inv

/-! ### Runs -/

variable [DecidableEq ι]

/-- **Channels deliver**: each item once and in order, whatever the tasks do and in whichever
order, and no wakeup is lost. -/
theorem channel_delivers (capacity : ℕ) {w : World ι T}
    (hrun : Transition.Run Step (fun _ _ => True) (World.start capacity) w) :
    Delivers capacity w := by
  obtain ⟨queue, hw⟩ := hrun.invariant (I := fun w => ∃ queue, Inv capacity w queue)
    ⟨[], Inv.start⟩ fun ⟨_, hw⟩ _ hstep => hw.step hstep
  exact hw.delivers

/-- Two sends into a channel of one place: the second waits. -/
theorem channel_delivers_full :
    Delivers 1 (((World.start 1 : World Bool ℕ).sendTurn false 5).sendTurn true 6) := by
  have hfirst : Step (World.start 1 : World Bool ℕ) (.send false 5) _ := .send 5 rfl
  have hsecond : Step ((World.start 1 : World Bool ℕ).sendTurn false 5) (.send true 6) _ :=
    .send 6 rfl
  exact channel_delivers 1 (.tail (.tail (.refl _) trivial hfirst) trivial hsecond)

end HdLang.Channel
