import HdLang.Sched.Steady

/-!
# The executors

`Executes` is a program that builds a task graph and runs it, any number of times, by
`SerialScheduler::run` in some order or by `run_pool`, whose workers' calls interleave in any way; a
task's body makes any calls of `Spawn`. `Slices` is one that runs it by slices of
`SteppingScheduler::run_for`, where the cancel flag may be raised at any time. A call that panics ends
the run. When an executor that nobody cancels finds nothing ready the graph is at rest
(`World.Rests`), so what has run is what is not stuck.
-/

namespace HdLang.Sched

open List Option TaskGraph

/-! ### An empty queue -/

variable {order : SerialOrder}

namespace TaskGraph

variable {g g' : TaskGraph}

theorem maxFrom_bounds {best : ℕ × (ℕ × ℕ)} {pos : ℕ} {rest : List ℕ} {found : ℕ}
    (h : g.maxFrom best pos rest = some found) :
    found = best.1 ∨ (pos ≤ found ∧ found < pos + rest.length) := by
  induction rest generalizing best pos with
  | nil =>
    obtain rfl := some.inj h
    exact .inl rfl
  | cons id rest ih =>
    rw [maxFrom] at h
    obtain ⟨k, -, h⟩ := bind_eq_some_iff.mp h
    rcases ih h with heq | ⟨hle, hlt⟩
    · split at heq
      · exact .inr ⟨heq.ge, by rw [heq, length_cons]; omega⟩
      · exact .inl heq
    · exact .inr ⟨Nat.le_of_succ_le hle, by rw [length_cons]; omega⟩

/-- A position that is chosen lies in the queue, unless the queue is empty. -/
theorem position_cases {pos : Option ℕ} (h : g.position order = some pos) :
    g.ready = [] ∨ ∃ k, pos = some k ∧ k < g.ready.length := by
  by_cases hready : g.ready = []
  · exact .inl hready
  · right
    have hlength := length_pos_iff.mpr hready
    cases order with
    | fifo => exact ⟨0, (some.inj h).symm, hlength⟩
    | priority =>
      unfold position at h
      cases hr : g.ready with
      | nil => exact absurd hr hready
      | cons id rest =>
        simp only [hr] at h
        obtain ⟨k, -, h⟩ := bind_eq_some_iff.mp h
        obtain ⟨best, hbest, h⟩ := bind_eq_some_iff.mp h
        refine ⟨best, (some.inj h).symm, ?_⟩
        rw [length_cons]
        rcases maxFrom_bounds hbest with heq | ⟨-, hlt⟩
        · rw [heq]
          exact Nat.succ_pos _
        · omega
    | shuffled seed =>
      simp only [position, if_neg hready] at h
      exact ⟨_, (some.inj h).symm, Nat.mod_lt _ hlength⟩

/-- `pop` gives nothing when the queue is empty only. -/
theorem ready_of_pop (h : g.pop order = some (none, g')) :
    g' = g ∧ g.ready = [] := by
  obtain ⟨-, rfl⟩ | ⟨pos, id, n, h', -⟩ := Inv.pop_cases h
  · refine ⟨rfl, ?_⟩
    unfold pop at h
    obtain ⟨pos, hpos, h⟩ := bind_eq_some_iff.mp h
    rcases position_cases hpos with hready | ⟨k, rfl, hk⟩
    · exact hready
    · simp only [List.getElem?_eq_getElem hk] at h
      obtain ⟨n, -, h⟩ := bind_eq_some_iff.mp h
      cases h
  · cases h'

theorem ready_of_drainFrom {turns : ℕ} {out : List (ℕ × TaskKind)}
    (h : g.drainFrom turns = some (out, g')) : g'.ready = [] := by
  induction turns generalizing g out with
  | zero => cases h
  | succ turns ih =>
    rw [drainFrom] at h
    obtain ⟨⟨popped, g₁⟩, hpop, h⟩ := bind_eq_some_iff.mp h
    cases popped with
    | none =>
      obtain ⟨rfl, rfl⟩ := Prod.mk.inj (some.inj h)
      obtain ⟨rfl, hready⟩ := ready_of_pop hpop
      exact hready
    | some id =>
      obtain ⟨n, -, h⟩ := bind_eq_some_iff.mp h
      obtain ⟨⟨rest, g₂⟩, hrest, h⟩ := bind_eq_some_iff.mp h
      obtain ⟨rfl, rfl⟩ := Prod.mk.inj (some.inj h)
      exact ih hrest

end TaskGraph

/-! ### Finished tasks -/

namespace TaskGraph

variable {g g' : TaskGraph} {id : ℕ} {checks : Bool}

theorem isDone_satisfy (h : g.satisfy checks id = some g') : g'.isDone = g.isDone := by
  ext t
  unfold satisfy at h
  obtain ⟨n, hn, h⟩ := bind_eq_some_iff.mp h
  obtain ⟨count, -, h⟩ := bind_eq_some_iff.mp h
  split at h
  · next hzero =>
    obtain rfl := some.inj h
    rw [isDone_set hn (by simp [hzero.2])]
  · obtain rfl := some.inj h
    exact isDone_set (m := { n with waitingOn := count }) hn Iff.rfl

theorem isDone_push (kind : TaskKind) (priority : ℕ) : (g.push kind priority).isDone = g.isDone := by
  ext t
  unfold isDone
  rw [Inv.node_push]
  split
  · next ht => simp [ht]
  · rfl

theorem isDone_edge {source target : ℕ} (h : g.edge checks source target = some g') :
    g'.isDone = g.isDone := by
  ext t
  obtain ⟨f, k, hf, hk, hstarted, ⟨-, rfl⟩ | ⟨-, f', k', count, hf', hk', -, rfl⟩⟩ :=
    Inv.edge_cases h
  · rfl
  · have hback : (g.pullBack target k).isDone t = g.isDone t := by
      unfold pullBack
      split
      · next hs => rw [isDone_set hk (by simp [hs])]
      · rfl
    refine (isDone_set (g := ⟨_, g.ready⟩) (m := { k' with waitingOn := count }) hk' Iff.rfl).trans ?_
    exact (isDone_set (m := { f' with successors := f'.successors ++ [target] }) hf' Iff.rfl).trans
      hback

variable {deps : List ℕ}

theorem isDone_edges (h : deps.foldlM (fun g d => g.edge checks d id) g = some g') :
    g'.isDone = g.isDone := by
  induction deps generalizing g with
  | nil =>
    obtain rfl := some.inj h
    rfl
  | cons d rest ih =>
    rw [foldlM_cons] at h
    obtain ⟨g₁, hedge, hrest⟩ := bind_eq_some_iff.mp h
    rw [ih hrest, isDone_edge hedge]

variable {kind : TaskKind} {priority : ℕ}

theorem isDone_addHeld (h : g.addHeld checks kind deps priority = some (id, g'))
    : g'.isDone = g.isDone := by
  unfold addHeld at h
  obtain ⟨g₁, hedges, hpair⟩ := bind_eq_some_iff.mp h
  obtain ⟨-, rfl⟩ := Prod.mk.inj (some.inj hpair)
  rw [isDone_edges hedges, isDone_push]

theorem isDone_addWithPriority (h : g.addWithPriority checks kind deps priority = some (id, g'))
    : g'.isDone = g.isDone := by
  unfold addWithPriority at h
  obtain ⟨⟨id', g₁⟩, hheld, h⟩ := bind_eq_some_iff.mp h
  obtain ⟨g₂, hrelease, hpair⟩ := bind_eq_some_iff.mp h
  obtain ⟨-, rfl⟩ := Prod.mk.inj (some.inj hpair)
  rw [isDone_satisfy hrelease, isDone_addHeld hheld]

theorem isDone_pop {popped : Option ℕ} (h : g.pop order = some (popped, g'))
    (hready : ∀ t n, g.nodes[t]? = some n → t ∈ g.ready → n.state = .ready) :
    g'.isDone = g.isDone := by
  ext t
  obtain ⟨-, rfl⟩ | ⟨pos, id, n, -, hpos, hn, rfl⟩ := Inv.pop_cases h
  · rfl
  · rw [isDone_set hn (by simp [hready id n hn (mem_of_getElem? hpos)])]

theorem isDone_complete (h : g.complete checks id = some g') (t : ℕ) :
    g'.isDone t = true ↔ t = id ∨ g.isDone t = true := by
  unfold complete at h
  obtain ⟨n, hn, h⟩ := bind_eq_some_iff.mp h
  have hrest : ∀ {owed : List ℕ} {g₁ : TaskGraph},
      owed.foldlM (fun g s => g.satisfy checks s) g₁ = some g' → g'.isDone = g₁.isDone := by
    intro owed
    induction owed with
    | nil =>
      intro g₁ h
      obtain rfl := some.inj h
      rfl
    | cons s rest ih =>
      intro g₁ h
      rw [foldlM_cons] at h
      obtain ⟨g₂, hg₂, h⟩ := bind_eq_some_iff.mp h
      rw [ih h, isDone_satisfy hg₂]
  rw [hrest h]
  unfold isDone
  rw [node_set hn]
  by_cases ht : t = id
  · simp [ht]
  · simp [ht]

end TaskGraph

/-- What builds a graph: all that `Spawn` lets a task do. -/
def Op.Builds : Op → Prop
  | .add _ _ _ | .addHeld _ _ _ | .release _ | .edge _ _ => True
  | _ => False

theorem Does.builds {checks : Bool} {w w' : World} {op : Op} (hdoes : Does checks w op w')
    (hop : op.Builds) : w'.graph.isDone = w.graph.isDone ∧ w'.returned = w.returned := by
  cases hdoes with
  | add hrun => exact ⟨isDone_addWithPriority hrun, rfl⟩
  | addHeld hrun => exact ⟨isDone_addHeld hrun, rfl⟩
  | release _ hrun => exact ⟨isDone_satisfy hrun, rfl⟩
  | edge hrun => exact ⟨isDone_edge hrun, rfl⟩
  | pop => exact hop.elim
  | complete => exact hop.elim
  | cancelAll => exact hop.elim

/-! ### The systems -/

inductive Phase
  /-- Outside of the executors; `some n` when `run` or `run_pool` has just returned `n`. -/
  | outside (left : Option ℕ)
  /-- At the head of the loop of `SerialScheduler::run`. -/
  | serial (order : SerialOrder)
  /-- In a task that `SerialScheduler::run` executes. -/
  | task (order : SerialOrder) (id : ℕ)
  /-- In the pool's scope, with the tasks that were spawned and have not completed. -/
  | pool (spawned : List ℕ)

structure Machine where
  world : World
  phase : Phase

/-- A step of a program that builds and runs a graph, with its call on the graph. -/
inductive Executes (checks : Bool) : Machine → Option Call → Machine → Prop
  | build {w w' : World} {left : Option ℕ} {op : Op} (hop : op.Builds) (hdoes : Does checks w op w') :
    Executes checks ⟨w, .outside left⟩ (some (.serial op)) ⟨w', .outside none⟩
  | run {w : World} {left : Option ℕ} (order : SerialOrder) :
    Executes checks ⟨w, .outside left⟩ none ⟨w, .serial order⟩
  | pop {w : World} {order : SerialOrder} {id : ℕ} {g : TaskGraph}
    (hpop : w.graph.pop order = some (some id, g)) :
    Executes checks ⟨w, .serial order⟩ (some (.serial (.pop order)))
      ⟨⟨g, w.held, w.edges, id :: w.returned⟩, .task order id⟩
  | exec {w w' : World} {order : SerialOrder} {id : ℕ} {op : Op} (hop : op.Builds)
    (hdoes : Does checks w op w') :
    Executes checks ⟨w, .task order id⟩ (some (.serial op)) ⟨w', .task order id⟩
  | complete {w : World} {order : SerialOrder} {id : ℕ} {g : TaskGraph}
    (hrun : w.graph.complete checks id = some g) :
    Executes checks ⟨w, .task order id⟩ (some (.serial (.complete id)))
      ⟨{ w with graph := g }, .serial order⟩
  | left {w : World} {order : SerialOrder} {g : TaskGraph}
    (hpop : w.graph.pop order = some (none, g)) :
    Executes checks ⟨w, .serial order⟩ none ⟨{ w with graph := g }, .outside (some g.unfinished)⟩
  | scope {w : World} {left : Option ℕ} {out : List (ℕ × TaskKind)} {g : TaskGraph}
    (hdrain : w.graph.drain = some (out, g)) :
    Executes checks ⟨w, .outside left⟩ (some .drain)
      ⟨⟨g, w.held, w.edges, (out.map Prod.fst).reverse ++ w.returned⟩, .pool (out.map Prod.fst)⟩
  | work {w w₁ : World} {spawned : List ℕ} {op : Op} {out : List (ℕ × TaskKind)} {g : TaskGraph}
    (hsome : spawned ≠ []) (hop : op.Builds) (hdoes : Does checks w op w₁)
    (hdrain : w₁.graph.drain = some (out, g)) :
    Executes checks ⟨w, .pool spawned⟩ (some (.locked op))
      ⟨⟨g, w₁.held, w₁.edges, (out.map Prod.fst).reverse ++ w₁.returned⟩,
        .pool (spawned ++ out.map Prod.fst)⟩
  | finish {w : World} {spawned : List ℕ} {id : ℕ} {out : List (ℕ × TaskKind)} {g g' : TaskGraph}
    (hid : id ∈ spawned) (hrun : w.graph.complete checks id = some g)
    (hdrain : g.drain = some (out, g')) :
    Executes checks ⟨w, .pool spawned⟩ (some (.locked (.complete id)))
      ⟨⟨g', w.held, w.edges, (out.map Prod.fst).reverse ++ w.returned⟩,
        .pool (spawned.erase id ++ out.map Prod.fst)⟩
  | join {w : World} :
    Executes checks ⟨w, .pool []⟩ none ⟨w, .outside (some w.graph.unfinished)⟩

/-- The edges that a step's call adds fit. -/
def Machine.Fits (checks : Bool) (m : Machine) : Option Call → Prop
  | some call => call.Fits checks m.world
  | none => True

/-! ### What a machine keeps -/

/-- The tasks in progress. -/
def Phase.active : Phase → List ℕ
  | outside _ | serial _ => []
  | task _ id => [id]
  | pool spawned => spawned

/-- Among the popped tasks those in progress are not done. -/
def World.Active (w : World) (active : List ℕ) : Prop :=
  active.Nodup ∧ ∀ t, t ∈ active ↔ t ∈ w.returned ∧ w.graph.isDone t = false

namespace World.Active

variable {w w' : World} {active : List ℕ} {id : ℕ} {checks : Bool}

theorem builds {op : Op} (hactive : w.Active active) (hdoes : Does checks w op w') (hop : op.Builds)
    : w'.Active active := by
  obtain ⟨hdone, hreturned⟩ := hdoes.builds hop
  refine ⟨hactive.1, fun t => ?_⟩
  rw [hactive.2 t, hdone, hreturned]

variable {g : TaskGraph}

theorem not_done (hinv : Inv w []) (hpop : w.graph.pop order = some (some id, g)) :
    w.graph.isDone id = false ∧ g.isDone = w.graph.isDone := by
  have hready : ∀ t n, w.graph.nodes[t]? = some n → t ∈ w.graph.ready → n.state = .ready := by
    intro t n hn ht
    obtain ⟨k, hk, hs⟩ := (hinv.ready_iff t).mp ht
    obtain rfl := some.inj (hn.symm.trans hk)
    exact hs
  refine ⟨?_, isDone_pop hpop hready⟩
  obtain ⟨h, -⟩ | ⟨pos, id', n, h, hpos, hn, -⟩ := Inv.pop_cases hpop
  · cases h
  · obtain rfl := some.inj h
    simp [isDone, hn, hready id n hn (mem_of_getElem? hpos)]

theorem pop (hinv : Inv w []) (hactive : w.Active active)
    (hpop : w.graph.pop order = some (some id, g)) :
    World.Active ⟨g, w.held, w.edges, id :: w.returned⟩ (id :: active) := by
  obtain ⟨hid, hdone⟩ := not_done hinv hpop
  have hfresh := hinv.safe.pop_fresh hpop
  refine ⟨nodup_cons.mpr ⟨fun h => hfresh ((hactive.2 id).mp h).1, hactive.1⟩, fun t => ?_⟩
  rw [mem_cons, hactive.2 t, hdone]
  show _ ↔ t ∈ id :: w.returned ∧ _
  rw [mem_cons]
  constructor
  · rintro (rfl | ⟨ht, hnot⟩)
    · exact ⟨.inl rfl, hid⟩
    · exact ⟨.inr ht, hnot⟩
  · rintro ⟨rfl | ht, hnot⟩
    · exact .inl rfl
    · exact .inr ⟨ht, hnot⟩

/-- A drain takes tasks that are not done, and they are in progress. -/
theorem drainFrom {turns : ℕ} (hinv : Inv w []) (hactive : w.Active active)
    {out : List (ℕ × TaskKind)} {g : TaskGraph} (hrun : w.graph.drainFrom turns = some (out, g)) :
    World.Active ⟨g, w.held, w.edges, (out.map Prod.fst).reverse ++ w.returned⟩
      (active ++ out.map Prod.fst) := by
  induction turns generalizing w out active with
  | zero => cases hrun
  | succ turns ih =>
    rw [drainFrom] at hrun
    obtain ⟨⟨popped, g₁⟩, hpop, hrun⟩ := bind_eq_some_iff.mp hrun
    cases popped with
    | none =>
      obtain ⟨rfl, rfl⟩ := Prod.mk.inj (some.inj hrun)
      obtain ⟨rfl, -⟩ := ready_of_pop hpop
      simpa using hactive
    | some id =>
      obtain ⟨n, -, hrun⟩ := bind_eq_some_iff.mp hrun
      obtain ⟨⟨rest, g₂⟩, hrest, hpair⟩ := bind_eq_some_iff.mp hrun
      obtain ⟨rfl, rfl⟩ := Prod.mk.inj (some.inj hpair)
      have hmore := ih (hinv.pop hpop) (hactive.pop hinv hpop) hrest
      have hperm : (id :: active ++ rest.map Prod.fst).Perm
          (active ++ ((id, n.kind) :: rest).map Prod.fst) := perm_middle.symm
      refine ⟨hperm.nodup_iff.mp hmore.1, fun t => ?_⟩
      rw [← hperm.mem_iff, hmore.2 t]
      simp

theorem complete (hactive : w.Active active) (hrun : w.graph.complete checks id = some g) :
    World.Active { w with graph := g } (active.erase id) := by
  refine ⟨hactive.1.erase id, fun t => ?_⟩
  rw [hactive.1.mem_erase_iff, hactive.2 t]
  show _ ↔ t ∈ w.returned ∧ g.isDone t = false
  rw [← Bool.not_eq_true, ← Bool.not_eq_true, isDone_complete hrun t, not_or]
  tauto

/-- With nothing ready and nothing in progress a graph is at rest. -/
theorem rests (hinv : Inv w []) (hsteady : Steady w) (hactive : w.Active [])
    (hready : w.graph.ready = []) : w.Rests := by
  intro t n hn
  constructor
  · intro hs
    have hmem := (hinv.ready_iff t).mpr ⟨n, hn, hs⟩
    rw [hready] at hmem
    exact absurd hmem not_mem_nil
  · intro hs
    have hpopped := hsteady.graph t n hn
    unfold TaskNode.Steady at hpopped
    simp only [hs] at hpopped
    exact absurd ((hactive.2 t).mpr ⟨hpopped.2, by simp [isDone, hn, hs]⟩) not_mem_nil

end World.Active

/-- The invariant of a machine. -/
structure Machine.Inv (m : Machine) : Prop where
  inv : Sched.Inv m.world []
  steady : Steady m.world
  active : m.world.Active m.phase.active
  drained : ∀ spawned, m.phase = .pool spawned → m.world.graph.ready = []
  left : ∀ n, m.phase = .outside (some n) → m.world.Rests ∧ n = m.world.graph.unfinished

namespace Machine.Inv

variable {m m' : Machine} {checks : Bool}

theorem start : Machine.Inv ⟨World.start, .outside none⟩ where
  inv := Sched.Inv.start
  steady := Steady.start
  active := ⟨nodup_nil, fun t => by simp [Phase.active, World.start]⟩
  drained _ h := nomatch h
  left _ h := nomatch h

theorem builds_ne {op : Op} (hop : op.Builds) : op ≠ .cancelAll := by
  rintro rfl
  exact hop

/-- **A step of a machine** keeps its invariant. -/
theorem step {call : Option Call} (hm : m.Inv) (hfits : m.Fits checks call)
    (hstep : Executes checks m call m') : m'.Inv := by
  obtain ⟨hinv, hsteady, hactive, hdrained, hleft⟩ := hm
  cases hstep with
  | build hop hdoes =>
    exact ⟨hinv.does hfits hdoes, hsteady.does hinv hfits (builds_ne hop) hdoes,
      hactive.builds hdoes hop, (fun _ h => nomatch h), (fun _ h => nomatch h)⟩
  | run order => exact ⟨hinv, hsteady, hactive, (fun _ h => nomatch h), (fun _ h => nomatch h)⟩
  | pop hpop =>
    exact ⟨hinv.pop hpop, hsteady.pop hinv hpop, hactive.pop hinv hpop, (fun _ h => nomatch h),
      (fun _ h => nomatch h)⟩
  | exec hop hdoes =>
    exact ⟨hinv.does hfits hdoes, hsteady.does hinv hfits (builds_ne hop) hdoes,
      hactive.builds hdoes hop, (fun _ h => nomatch h), (fun _ h => nomatch h)⟩
  | @complete w order id g hrun =>
    obtain ⟨hreturned, hdone⟩ := (hactive.2 id).mp (mem_singleton_self id)
    have hdoes : Does checks w (.complete id) _ := .complete hreturned hdone hrun
    have hnext := hactive.complete hrun
    rw [show (Phase.task order id).active.erase id = [] from erase_cons_head id []] at hnext
    exact ⟨hinv.does (show (Op.complete id).Fits checks w from trivial) hdoes,
      hsteady.complete hinv hreturned hdone hrun, hnext,
      (fun _ h => nomatch h), (fun _ h => nomatch h)⟩
  | left hpop =>
    obtain ⟨rfl, hready⟩ := ready_of_pop hpop
    refine ⟨hinv, hsteady, hactive, (fun _ h => nomatch h), fun n h => ?_⟩
    obtain rfl := some.inj (Phase.outside.inj h)
    exact ⟨hactive.rests hinv hsteady hready, rfl⟩
  | scope hdrain =>
    exact ⟨hinv.drainFrom hdrain, hsteady.drainFrom hinv hdrain, hactive.drainFrom hinv hdrain,
      fun _ _ => ready_of_drainFrom hdrain, (fun _ h => nomatch h)⟩
  | work hsome hop hdoes hdrain =>
    have hinv₁ := hinv.does hfits hdoes
    exact ⟨hinv₁.drainFrom hdrain,
      (hsteady.does hinv hfits (builds_ne hop) hdoes).drainFrom hinv₁ hdrain,
      (hactive.builds hdoes hop).drainFrom hinv₁ hdrain,
      fun _ _ => ready_of_drainFrom hdrain, (fun _ h => nomatch h)⟩
  | @finish w spawned id out g g' hid hrun hdrain =>
    obtain ⟨hreturned, hdone⟩ := (hactive.2 id).mp hid
    have hdoes : Does checks w (.complete id) ⟨g, w.held, w.edges, w.returned⟩ :=
      .complete hreturned hdone hrun
    have hinv₁ := hinv.does (show (Op.complete id).Fits checks w from trivial) hdoes
    exact ⟨hinv₁.drainFrom hdrain, (hsteady.complete hinv hreturned hdone hrun).drainFrom hinv₁ hdrain,
      (hactive.complete hrun).drainFrom hinv₁ hdrain,
      fun _ _ => ready_of_drainFrom hdrain, (fun _ h => nomatch h)⟩
  | join =>
    refine ⟨hinv, hsteady, hactive, (fun _ h => nomatch h), fun n h => ?_⟩
    obtain rfl := some.inj (Phase.outside.inj h)
    exact ⟨hactive.rests hinv hsteady (hdrained [] rfl), rfl⟩

end Machine.Inv

end HdLang.Sched
