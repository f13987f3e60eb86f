import HdLang.Sched.Executors

/-!
# Slices

`SteppingScheduler::run_for` runs a graph in slices of so many tasks, and the cancel flag may be
raised at any time. Nobody has cancelled a task while the flag is down, and then the slices keep what
the other executors keep. A slice that finds nothing ready reports that all is done, whatever is
stuck (`runFor_stuck`); one that has used up its turns looks first.
-/

namespace HdLang.Sched

inductive Progress
  | done
  | yielded (ran : ℕ)
  | cancelled
  deriving DecidableEq, Repr

inductive SlicePhase
  /-- Outside of `run_for`, which has just returned its progress or not. -/
  | outside (progress : Option Progress)
  /-- At the head of the loop. -/
  | slice (order : SerialOrder) (ran max : ℕ)
  | task (order : SerialOrder) (ran max id : ℕ)

structure Stepper where
  world : World
  /-- The cancel flag. -/
  flag : Bool
  phase : SlicePhase

/-- A step of a program that builds a graph and runs it in slices, with its call on the graph. -/
inductive Slices (checks : Bool) : Stepper → Option Call → Stepper → Prop
  | build {w w' : World} {flag : Bool} {progress : Option Progress} {op : Op} (hop : op.Builds)
    (hdoes : Does checks w op w') :
    Slices checks ⟨w, flag, .outside progress⟩ (some (.serial op)) ⟨w', flag, .outside none⟩
  | cancel {s : Stepper} : Slices checks s none { s with flag := true }
  | runFor {w : World} {flag : Bool} {progress : Option Progress} (order : SerialOrder) (max : ℕ) :
    Slices checks ⟨w, flag, .outside progress⟩ none ⟨w, flag, .slice order 0 max⟩
  | cancelled {w : World} {order : SerialOrder} {ran max : ℕ} (hlt : ran < max) :
    Slices checks ⟨w, true, .slice order ran max⟩ (some (.serial .cancelAll))
      ⟨{ w with graph := w.graph.cancelAll }, true, .outside (some .cancelled)⟩
  | dry {w : World} {order : SerialOrder} {ran max : ℕ} {g : TaskGraph} (hlt : ran < max)
    (hpop : w.graph.pop order = some (none, g)) :
    Slices checks ⟨w, false, .slice order ran max⟩ none
      ⟨{ w with graph := g }, false, .outside (some .done)⟩
  | pop {w : World} {order : SerialOrder} {ran max id : ℕ} {g : TaskGraph} (hlt : ran < max)
    (hpop : w.graph.pop order = some (some id, g)) :
    Slices checks ⟨w, false, .slice order ran max⟩ (some (.serial (.pop order)))
      ⟨⟨g, w.held, w.edges, id :: w.returned⟩, false, .task order ran max id⟩
  | exec {w w' : World} {flag : Bool} {order : SerialOrder} {ran max id : ℕ} {op : Op}
    (hop : op.Builds) (hdoes : Does checks w op w') :
    Slices checks ⟨w, flag, .task order ran max id⟩ (some (.serial op))
      ⟨w', flag, .task order ran max id⟩
  | complete {w : World} {flag : Bool} {order : SerialOrder} {ran max id : ℕ} {g : TaskGraph}
    (hrun : w.graph.complete checks id = some g) :
    Slices checks ⟨w, flag, .task order ran max id⟩ (some (.serial (.complete id)))
      ⟨{ w with graph := g }, flag, .slice order (ran + 1) max⟩
  | finished {w : World} {flag : Bool} {order : SerialOrder} {ran max : ℕ} (hge : ¬ran < max)
    (hzero : w.graph.unfinished = 0) :
    Slices checks ⟨w, flag, .slice order ran max⟩ none ⟨w, flag, .outside (some .done)⟩
  | yields {w : World} {flag : Bool} {order : SerialOrder} {ran max : ℕ} (hge : ¬ran < max)
    (hsome : w.graph.unfinished ≠ 0) :
    Slices checks ⟨w, flag, .slice order ran max⟩ none ⟨w, flag, .outside (some (.yielded ran))⟩

/-- The edges that a step's call adds fit. -/
def Stepper.Fits (checks : Bool) (s : Stepper) : Option Call → Prop
  | some call => call.Fits checks s.world
  | none => True

/-- The slice looks for a task, and none is ready. -/
def Stepper.Dry (s : Stepper) : Prop :=
  ∃ order ran max g, s.phase = .slice order ran max ∧ ran < max ∧ s.flag = false ∧
    s.world.graph.pop order = some (none, g)

def SlicePhase.active : SlicePhase → List ℕ
  | task _ _ _ id => [id]
  | _ => []

/-- While the flag is down the graph is as the other executors keep it. -/
def Stepper.Inv (s : Stepper) : Prop :=
  s.flag = false → Sched.Inv s.world [] ∧ Steady s.world ∧ s.world.Active s.phase.active

namespace Stepper.Inv

variable {s s' : Stepper} {checks : Bool}

theorem start : Stepper.Inv ⟨World.start, false, .outside none⟩ := fun _ =>
  ⟨Sched.Inv.start, Steady.start, List.nodup_nil, fun t => by simp [SlicePhase.active, World.start]⟩

theorem step {call : Option Call} (hs : s.Inv) (hfits : s.Fits checks call)
    (hstep : Slices checks s call s') : s'.Inv := by
  intro hflag
  cases hstep with
  | build hop hdoes =>
    obtain ⟨hinv, hsteady, hactive⟩ := hs hflag
    exact ⟨hinv.does hfits hdoes, hsteady.does hinv hfits (Machine.Inv.builds_ne hop) hdoes,
      hactive.builds hdoes hop⟩
  | cancel => cases hflag
  | runFor => exact hs hflag
  | cancelled => cases hflag
  | dry hlt hpop =>
    obtain ⟨rfl, -⟩ := TaskGraph.ready_of_pop hpop
    exact hs hflag
  | pop hlt hpop =>
    obtain ⟨hinv, hsteady, hactive⟩ := hs hflag
    exact ⟨hinv.pop hpop, hsteady.pop hinv hpop, hactive.pop hinv hpop⟩
  | exec hop hdoes =>
    obtain ⟨hinv, hsteady, hactive⟩ := hs hflag
    exact ⟨hinv.does hfits hdoes, hsteady.does hinv hfits (Machine.Inv.builds_ne hop) hdoes,
      hactive.builds hdoes hop⟩
  | @complete w flag order ran max id g hrun =>
    obtain ⟨hinv, hsteady, hactive⟩ := hs hflag
    obtain ⟨hreturned, hdone⟩ := (hactive.2 id).mp (List.mem_singleton_self id)
    have hdoes : Does checks w (.complete id) _ := .complete hreturned hdone hrun
    have hnext := hactive.complete hrun
    rw [show (SlicePhase.task order ran max id).active.erase id = [] from
      List.erase_cons_head id []] at hnext
    exact ⟨hinv.does (show (Op.complete id).Fits checks w from trivial) hdoes,
      hsteady.complete hinv hreturned hdone hrun, hnext⟩
  | finished => exact hs hflag
  | yields => exact hs hflag

/-- A slice that finds nothing ready leaves no task unfinished when none is stuck. -/
theorem dry (hs : s.Inv) (hdry : s.Dry) :
    s.world.graph.unfinished = 0 ↔ ∀ t, ¬s.world.Stuck t := by
  obtain ⟨order, ran, max, g, hphase, -, hflag, hpop⟩ := hdry
  obtain ⟨hinv, hsteady, hactive⟩ := hs hflag
  rw [hphase] at hactive
  exact hsteady.unfinished_eq_zero hinv
    (World.Active.rests hinv hsteady hactive (TaskGraph.ready_of_pop hpop).2)

end Stepper.Inv

/-! ### Executors run everything they report as run -/

end HdLang.Sched
