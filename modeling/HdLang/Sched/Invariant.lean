import HdLang.Sched.Model

/-!
# The invariant of a task graph

`Inv w owed` says how the graph of `w` stands to what was asked of it, where the counts of the tasks
of `owed` are still to be lowered by one each: the list is empty between operations, and `release`
and `complete` put a guard's or a finished task's counts in it and pay them off one by one.
-/

namespace HdLang.Sched

open List Option TaskGraph World

/-! ### One node changes -/

namespace TaskGraph

variable {g : TaskGraph} {id t : ℕ} {n m : TaskNode}

theorem lt_of_node (h : g.nodes[id]? = some n) : id < g.nodes.length :=
  (List.getElem?_eq_some_iff.mp h).1

theorem node_set (h : g.nodes[id]? = some n) :
    (g.nodes.set id m)[t]? = if t = id then some m else g.nodes[t]? := by
  rw [getElem?_set]
  by_cases ht : id = t
  · subst ht
    simp [lt_of_node h]
  · simp [ht, Ne.symm ht]

variable {r : List ℕ}

theorem isDone_set (h : g.nodes[id]? = some n) (hm : m.state = .done ↔ n.state = .done) :
    isDone ⟨g.nodes.set id m, r⟩ t = g.isDone t := by
  unfold isDone
  rw [node_set h]
  by_cases ht : t = id
  · subst ht
    simp [h, hm]
  · simp [ht]

theorem finished_set (h : g.nodes[id]? = some n) (hm : m.state.finished = n.state.finished) :
    finished ⟨g.nodes.set id m, r⟩ t = g.finished t := by
  unfold finished
  rw [node_set h]
  by_cases ht : t = id
  · subst ht
    simp [h, hm]
  · simp [ht]

theorem finished_of_isDone (h : g.isDone t = true) : g.finished t = true := by
  unfold isDone finished at *
  cases hn : g.nodes[t]? with
  | none => simp [hn] at h
  | some n =>
    have hd : n.state = .done := by simpa [hn] using h
    simp [hd, State.finished]

end TaskGraph

/-! ### The invariant -/

/-- The graph of `w` is what its operations make it, but for one count of each task of `owed`. -/
structure Inv (w : World) (owed : List ℕ) : Prop where
  ready_nodup : w.graph.ready.Nodup
  ready_iff : ∀ t : ℕ,
    t ∈ w.graph.ready ↔ ∃ n : TaskNode, w.graph.nodes[t]? = some n ∧ n.state = .ready
  settled : ∀ {t : ℕ} {n : TaskNode}, w.graph.nodes[t]? = some n → n.state = .ready →
    n.waitingOn = 0
  waitingOn : ∀ {t : ℕ} {n : TaskNode}, w.graph.nodes[t]? = some n →
    n.waitingOn = w.guard t + w.pending t + owed.count t
  successors : ∀ {f : ℕ} {n : TaskNode}, w.graph.nodes[f]? = some n → n.successors =
    if n.state = .done then [] else (w.edges.filter fun e => e.counted ∧ e.source = f).map Edge.target
  known : ∀ {e : Edge}, e ∈ w.edges →
    e.source < w.graph.nodes.length ∧ e.target < w.graph.nodes.length
  satisfied : ∀ {e : Edge}, e ∈ w.edges → e.counted = false → w.graph.finished e.source = true
  held_known : ∀ {t : ℕ}, t ∈ w.held → t < w.graph.nodes.length
  started : ∀ {t : ℕ} {n : TaskNode}, t ∈ w.returned → w.graph.nodes[t]? = some n →
    n.state.unstarted = false
  returned_known : ∀ {t : ℕ}, t ∈ w.returned → t < w.graph.nodes.length
  returned_nodup : w.returned.Nodup

namespace Inv

variable {w : World} {owed owed' : List ℕ} {id t : ℕ} {n m : TaskNode}

theorem start : Inv World.start [] where
  ready_nodup := nodup_nil
  ready_iff t := by simp [World.start, empty]
  settled h := by simp [World.start, empty] at h
  waitingOn h := by simp [World.start, empty] at h
  successors h := by simp [World.start, empty] at h
  known h := by simp [World.start] at h
  satisfied h := by simp [World.start] at h
  held_known h := by simp [World.start] at h
  started h := by simp [World.start] at h
  returned_known h := by simp [World.start] at h
  returned_nodup := nodup_nil

theorem exists_node (h : id < w.graph.nodes.length) : ∃ n, w.graph.nodes[id]? = some n :=
  ⟨_, getElem?_eq_getElem h⟩

/-- One node changes its count and its state and the queue follows it, while the task neither
finishes nor starts over. -/
theorem set (hw : Inv w owed) (hn : w.graph.nodes[id]? = some n) {r : List ℕ}
    (hsucc : m.successors = n.successors) (hdone : m.state = .done ↔ n.state = .done)
    (hfin : m.state.finished = n.state.finished) (hnodup : r.Nodup)
    (hready : ∀ t, t ∈ r ↔ if t = id then m.state = .ready else t ∈ w.graph.ready)
    (hsettled : m.state = .ready → m.waitingOn = 0)
    (hcount : m.waitingOn = w.guard id + w.pending id + owed'.count id)
    (howed : ∀ t, t ≠ id → owed'.count t = owed.count t)
    (hstarted : n.state.unstarted = false → m.state.unstarted = false) :
    Inv { w with graph := ⟨w.graph.nodes.set id m, r⟩ } owed' := by
  have hnode : ∀ t : ℕ, (w.graph.nodes.set id m)[t]? =
      if t = id then some m else w.graph.nodes[t]? := fun t => node_set hn
  have hpending : ∀ t : ℕ,
      pending { w with graph := ⟨w.graph.nodes.set id m, r⟩ } t = w.pending t := by
    intro t
    unfold pending
    simp only [isDone_set hn hdone]
  exact
    { ready_nodup := hnodup
      ready_iff := by
        intro t
        rw [hready, hnode]
        by_cases ht : t = id
        · simp [ht]
        · simp only [ht, if_false]
          exact hw.ready_iff t
      settled := by
        intro t k hk hs
        rw [hnode] at hk
        split at hk
        · obtain rfl := some.inj hk
          exact hsettled hs
        · exact hw.settled hk hs
      waitingOn := by
        intro t k hk
        rw [hnode] at hk
        rw [hpending]
        split at hk
        · next ht =>
          obtain rfl := some.inj hk
          rw [ht]
          exact hcount
        · next ht =>
          rw [howed t ht]
          exact hw.waitingOn hk
      successors := by
        intro f k hk
        rw [hnode] at hk
        split at hk
        · next hf =>
          obtain rfl := some.inj hk
          rw [hsucc, hw.successors hn, hf]
          simp only [hdone]
        · exact hw.successors hk
      known := fun he => by simpa using hw.known he
      satisfied := by
        intro e he hc
        rw [finished_set hn hfin]
        exact hw.satisfied he hc
      held_known := fun ht => by simpa using hw.held_known ht
      started := by
        intro t k ht hk
        rw [hnode] at hk
        split at hk
        · next h =>
          obtain rfl := some.inj hk
          subst h
          exact hstarted (hw.started ht hn)
        · exact hw.started ht hk
      returned_known := fun ht => by simpa using hw.returned_known ht
      returned_nodup := hw.returned_nodup }

/-! ### Counts go down -/

/-- Lowering the count of a task that is owed one neither panics nor wraps. -/
theorem satisfy (checks : Bool) (hw : Inv w (id :: owed)) (hid : id < w.graph.nodes.length) :
    ∃ g, w.graph.satisfy checks id = some g ∧ Inv { w with graph := g } owed ∧
      g.nodes.length = w.graph.nodes.length := by
  obtain ⟨n, hn⟩ := exists_node hid
  have hcount : n.waitingOn = w.guard id + w.pending id + owed.count id + 1 := by
    rw [hw.waitingOn hn, count_cons_self]
    omega
  have hready : n.state ≠ .ready := fun h => by
    have := hw.settled hn h
    omega
  have hmem : id ∉ w.graph.ready := by
    intro h
    obtain ⟨k, hk, hs⟩ := (hw.ready_iff id).mp h
    rw [hn] at hk
    obtain rfl := some.inj hk
    exact hready hs
  have howed : ∀ t, t ≠ id → owed.count t = (id :: owed).count t := fun t ht =>
    (count_cons_of_ne (Ne.symm ht)).symm
  have hdecrease : decrease checks n.waitingOn = some (n.waitingOn - 1) := by
    unfold decrease
    rw [if_pos (by omega)]
  have hrun : w.graph.satisfy checks id =
      if n.waitingOn - 1 = 0 ∧ n.state = .waiting then
        some ⟨w.graph.nodes.set id { n with waitingOn := n.waitingOn - 1, state := .ready },
          w.graph.ready ++ [id]⟩
      else
        some { w.graph with
          nodes := w.graph.nodes.set id { n with waitingOn := n.waitingOn - 1 } } := by
    simp [TaskGraph.satisfy, hn, hdecrease]
  rw [hrun]
  split
  · next h =>
    refine ⟨_, rfl, hw.set hn rfl ?_ ?_ ?_ ?_ ?_ ?_ howed ?_, by simp⟩
    · simp [h.2]
    · simp [h.2, State.finished]
    · exact List.Nodup.append hw.ready_nodup (nodup_singleton id) (by simpa using hmem)
    · intro t
      by_cases ht : t = id <;> simp [ht]
    · exact fun _ => h.1
    · show n.waitingOn - 1 = _
      omega
    · simp [h.2, State.unstarted]
  · refine ⟨_, rfl, hw.set hn rfl Iff.rfl rfl hw.ready_nodup ?_ ?_ ?_ howed (fun h => h), by simp⟩
    · intro t
      by_cases ht : t = id
      · simp [ht, hmem, hready]
      · simp [ht]
    · exact fun h => absurd h hready
    · show n.waitingOn - 1 = _
      omega

/-- The loop of `complete`: it pays off what is owed. -/
theorem satisfy_all (checks : Bool) (hw : Inv w owed) (howed : ∀ t ∈ owed, t < w.graph.nodes.length) :
    ∃ g, owed.foldlM (fun g s => g.satisfy checks s) w.graph = some g ∧
      Inv { w with graph := g } [] := by
  induction owed generalizing w with
  | nil => exact ⟨w.graph, rfl, hw⟩
  | cons s rest ih =>
    obtain ⟨g, hg, hInv, hlen⟩ := hw.satisfy checks (howed s mem_cons_self)
    obtain ⟨g', hg', hInv'⟩ := ih (w := { w with graph := g }) hInv fun t ht => by
      rw [hlen]
      exact howed t (mem_cons_of_mem s ht)
    exact ⟨g', by simpa [hg] using hg', hInv'⟩

/-- A guard that is dropped is a count that is owed. -/
theorem drop_guard (hw : Inv w []) (hid : id ∈ w.held) :
    Inv { w with held := w.held.erase id } [id] :=
  { hw with
    waitingOn := by
      intro t n hn
      have hcount := hw.waitingOn hn
      have hguard : w.guard t =
          World.guard { w with held := w.held.erase id } t + [id].count t := by
        unfold World.guard
        by_cases ht : t = id
        · simp [ht, hid]
        · simp [ht, Ne.symm ht]
      rw [count_nil] at hcount
      show n.waitingOn = _ + w.pending t + _
      omega
    held_known := fun ht => hw.held_known (Finset.mem_of_mem_erase ht) }

theorem release (checks : Bool) (hw : Inv w []) (hid : id ∈ w.held) :
    ∃ g, w.graph.release checks id = some g ∧
      Inv { w with graph := g, held := w.held.erase id } [] := by
  obtain ⟨g, hg, hInv, -⟩ := (hw.drop_guard hid).satisfy checks (hw.held_known hid)
  exact ⟨g, hg, hInv⟩

/-! ### The graph grows -/

theorem node_push (g : TaskGraph) (kind : TaskKind) (priority : ℕ) (t : ℕ) :
    (g.push kind priority).nodes[t]? =
      if t = g.nodes.length then some ⟨kind, 1, [], .waiting, priority⟩ else g.nodes[t]? := by
  show (g.nodes ++ [_])[t]? = _
  rw [getElem?_append]
  by_cases ht : t = g.nodes.length
  · simp [ht]
  · by_cases hlt : t < g.nodes.length
    · simp [ht, hlt]
    · rw [if_neg hlt, if_neg ht, getElem?_eq_none (by simp; omega), getElem?_eq_none (by omega)]

theorem push (hw : Inv w []) (kind : TaskKind) (priority : ℕ) :
    Inv { w with
      graph := w.graph.push kind priority, held := insert w.graph.nodes.length w.held } [] := by
  have hnode : ∀ t : ℕ, t < w.graph.nodes.length →
      (w.graph.push kind priority).nodes[t]? = w.graph.nodes[t]? := by
    intro t ht
    rw [node_push, if_neg (Nat.ne_of_lt ht)]
  have hlen : (w.graph.push kind priority).nodes.length = w.graph.nodes.length + 1 := by
    simp [TaskGraph.push]
  have hpending : ∀ t : ℕ, World.pending { w with
      graph := w.graph.push kind priority, held := insert w.graph.nodes.length w.held } t =
        w.pending t := by
    intro t
    refine countP_congr fun e he => ?_
    have hsource := hnode _ (hw.known he).1
    simp only [TaskGraph.isDone, hsource]
    rfl
  have hnew : w.pending w.graph.nodes.length = 0 := by
    refine countP_eq_zero.mpr fun e he => ?_
    have := (hw.known he).2
    simp only [decide_eq_true_eq, not_and]
    omega
  exact
    { hw with
      ready_iff := by
        intro t
        show t ∈ w.graph.ready ↔ _
        rw [hw.ready_iff, node_push]
        split
        · next ht => simp [ht]
        · rfl
      settled := by
        intro t n hn hs
        rw [node_push] at hn
        split at hn
        · obtain rfl := some.inj hn
          cases hs
        · exact hw.settled hn hs
      waitingOn := by
        intro t n hn
        rw [node_push] at hn
        rw [hpending]
        split at hn
        · next ht =>
          obtain rfl := some.inj hn
          simp [ht, hnew, World.guard]
        · next ht =>
          rw [hw.waitingOn hn]
          simp [ht, World.guard]
      successors := by
        intro f n hn
        rw [node_push] at hn
        split at hn
        · next hf =>
          obtain rfl := some.inj hn
          have hnone : ∀ e ∈ w.edges, e.counted = true → ¬e.source = f := by
            intro e he _ hsource
            have := (hw.known he).1
            omega
          simpa using hnone
        · exact hw.successors hn
      known := by
        intro e he
        obtain ⟨hsource, htarget⟩ := hw.known he
        rw [hlen]
        exact ⟨Nat.lt_succ_of_lt hsource, Nat.lt_succ_of_lt htarget⟩
      satisfied := by
        intro e he hc
        have hfin := hw.satisfied he hc
        simp only [TaskGraph.finished, hnode _ (hw.known he).1] at hfin ⊢
        exact hfin
      held_known := by
        intro t ht
        show t < (w.graph.push kind priority).nodes.length
        rcases Finset.mem_insert.mp ht with rfl | ht
        · omega
        · have := hw.held_known ht
          omega
      started := by
        intro t n ht hn
        rw [hnode _ (hw.returned_known ht)] at hn
        exact hw.started ht hn
      returned_known := by
        intro t ht
        have := hw.returned_known ht
        show t < (w.graph.push kind priority).nodes.length
        omega }

theorem pullBack (hw : Inv w []) (hn : w.graph.nodes[id]? = some n) :
    Inv { w with graph := w.graph.pullBack id n } [] := by
  unfold TaskGraph.pullBack
  split
  · next h =>
    refine hw.set hn rfl ?_ ?_ ?_ ?_ ?_ ?_ (fun _ _ => rfl) ?_
    · simp [h]
    · simp [h, State.finished]
    · exact hw.ready_nodup.filter _
    · intro t
      by_cases ht : t = id <;> simp [ht]
    · intro hs
      cases hs
    · have hcount := hw.waitingOn hn
      exact hcount
    · simp [h, State.unstarted]
  · exact hw

/-- What an edge that counts makes of a node. -/
def linked (source target t : ℕ) (n : TaskNode) : TaskNode :=
  { n with
    waitingOn := if t = target then n.waitingOn + 1 else n.waitingOn
    successors := if t = source then n.successors ++ [target] else n.successors }

variable {source target : ℕ}

variable {g : TaskGraph} {k : TaskNode}

/-- The graph of an edge that counts: at the source one more successor, at the target one more
count. -/
theorem node_link {f : TaskNode} (hf : g.nodes[source]? = some f)
    (hk : (g.nodes.set source { f with successors := f.successors ++ [target] })[target]? = some k)
    (t : ℕ) :
    ((g.nodes.set source { f with successors := f.successors ++ [target] }).set target
      { k with waitingOn := k.waitingOn + 1 })[t]? =
      (g.nodes[t]?).map (linked source target t) := by
  unfold linked
  have hset : ∀ j : ℕ, (g.nodes.set source { f with successors := f.successors ++ [target] })[j]? =
      if j = source then some { f with successors := f.successors ++ [target] } else g.nodes[j]? :=
    fun j => node_set hf
  rw [node_set (g := ⟨g.nodes.set source _, []⟩) hk, hset]
  rw [hset] at hk
  by_cases ht : t = target
  · subst ht
    by_cases hs : t = source
    · subst hs
      rw [if_pos rfl] at hk
      obtain rfl := some.inj hk
      simp [hf]
    · rw [if_neg hs] at hk
      simp [hs, hk]
  · by_cases hs : t = source
    · subst hs
      simp [ht, hf]
    · simp [ht, hs]

/-- An edge from an unfinished task to a waiting one is counted. -/
theorem link (hw : Inv w []) (hsource : source < w.graph.nodes.length)
    (htarget : w.graph.nodes[target]? = some k) (hk : k.state = .waiting)
    (hdone : w.graph.isDone source = false)
    (hnode : ∀ t : ℕ, g.nodes[t]? = (w.graph.nodes[t]?).map (linked source target t))
    (hready : g.ready = w.graph.ready) :
    Inv { w with graph := g, edges := w.edges ++ [⟨source, target, true⟩] } [] := by
  have hlen : g.nodes.length = w.graph.nodes.length := by
    refine Nat.le_antisymm ?_ ?_
    · refine getElem?_eq_none_iff.mp ?_
      rw [hnode, getElem?_eq_none (Nat.le_refl _)]
      rfl
    · have hnone := hnode g.nodes.length
      rw [getElem?_eq_none (Nat.le_refl _)] at hnone
      exact getElem?_eq_none_iff.mp (map_eq_none_iff.mp hnone.symm)
  have hisDone : ∀ t : ℕ, g.isDone t = w.graph.isDone t := by
    intro t
    simp only [isDone, hnode, Option.any_map, linked]
    rfl
  have hfinished : ∀ t : ℕ, g.finished t = w.graph.finished t := by
    intro t
    simp [finished, hnode, Option.any_map, linked]
  have hpending : ∀ t : ℕ, pending { w with
      graph := g, edges := w.edges ++ [⟨source, target, true⟩] } t =
        w.pending t + if t = target then 1 else 0 := by
    intro t
    unfold pending
    simp only [hisDone, countP_append, countP_singleton]
    by_cases ht : t = target
    · simp [ht, hdone]
    · simp [ht, Ne.symm ht]
  have hinv : ∀ {t : ℕ} {n : TaskNode}, g.nodes[t]? = some n →
      ∃ m : TaskNode, w.graph.nodes[t]? = some m ∧ n = linked source target t m := by
    intro t n hn
    rw [hnode] at hn
    obtain ⟨m, hm, hmn⟩ := map_eq_some_iff.mp hn
    exact ⟨m, hm, hmn.symm⟩
  exact
    { ready_nodup := hready ▸ hw.ready_nodup
      ready_iff := by
        intro t
        show t ∈ g.ready ↔ ∃ n, g.nodes[t]? = some n ∧ n.state = .ready
        rw [hready, hw.ready_iff, hnode]
        simp [linked]
      settled := by
        intro t n hn hs
        obtain ⟨m, hm, rfl⟩ := hinv hn
        have hne : t ≠ target := by
          rintro rfl
          rw [htarget] at hm
          obtain rfl := some.inj hm
          rw [linked, hk] at hs
          cases hs
        simpa [linked, hne] using hw.settled hm hs
      waitingOn := by
        intro t n hn
        obtain ⟨m, hm, rfl⟩ := hinv hn
        have hcount := hw.waitingOn hm
        rw [hpending]
        show (linked source target t m).waitingOn = w.guard t + _ + _
        by_cases ht : t = target
        · simp only [linked, if_pos ht]
          omega
        · simp only [linked, if_neg ht]
          omega
      successors := by
        intro f n hn
        obtain ⟨m, hm, rfl⟩ := hinv hn
        have hsucc := hw.successors hm
        by_cases hf : f = source
        · subst hf
          have hnd : m.state ≠ .done := by simpa [isDone, hm] using hdone
          simp [linked, hsucc, hnd]
        · simp [linked, hsucc, hf, Ne.symm hf]
      known := by
        intro e he
        show _ < g.nodes.length ∧ _ < g.nodes.length
        rw [hlen]
        rcases mem_append.mp he with he | he
        · exact hw.known he
        · obtain rfl := mem_singleton.mp he
          exact ⟨hsource, lt_of_node htarget⟩
      satisfied := by
        intro e he hc
        show g.finished _ = true
        rw [hfinished]
        rcases mem_append.mp he with he | he
        · exact hw.satisfied he hc
        · obtain rfl := mem_singleton.mp he
          cases hc
      held_known := fun ht => hlen.symm ▸ hw.held_known ht
      started := by
        intro t n ht hn
        obtain ⟨m, hm, rfl⟩ := hinv hn
        have hstarted := hw.started ht hm
        exact hstarted
      returned_known := fun ht => hlen.symm ▸ hw.returned_known ht
      returned_nodup := hw.returned_nodup }

/-- An edge from a finished task is satisfied at once. -/
theorem satisfied_edge (hw : Inv w []) (hsource : source < w.graph.nodes.length)
    (htarget : target < w.graph.nodes.length) (hfin : w.graph.finished source = true) :
    Inv { w with edges := w.edges ++ [⟨source, target, false⟩] } [] := by
  refine
    { hw with
      waitingOn := ?_
      successors := ?_
      known := ?_
      satisfied := ?_ }
  · intro t n hn
    have hcount := hw.waitingOn hn
    have hpending : pending { w with edges := w.edges ++ [⟨source, target, false⟩] } t =
        w.pending t := by
      simp [pending, countP_append]
    rw [hpending]
    exact hcount
  · intro f n hn
    simpa using hw.successors hn
  · intro e he
    rcases mem_append.mp he with he | he
    · exact hw.known he
    · obtain rfl := mem_singleton.mp he
      exact ⟨hsource, htarget⟩
  · intro e he hc
    rcases mem_append.mp he with he | he
    · exact hw.satisfied he hc
    · obtain rfl := mem_singleton.mp he
      exact hfin

variable {checks : Bool}

variable {g' : TaskGraph}

/-- What `edge` does: nothing for a finished source, else the target waits for one more. -/
theorem edge_cases (hrun : g.edge checks source target = some g') :
    ∃ f k : TaskNode, g.nodes[source]? = some f ∧ g.nodes[target]? = some k ∧
      k.state.unstarted = true ∧
      (f.state.finished = true ∧ g' = g ∨
        f.state.finished = false ∧ ∃ (f' k' : TaskNode) (count : ℕ),
          (g.pullBack target k).nodes[source]? = some f' ∧
          ((g.pullBack target k).nodes.set source
            { f' with successors := f'.successors ++ [target] })[target]? = some k' ∧
          increase checks k'.waitingOn = some count ∧
          g' = { g.pullBack target k with
            nodes := ((g.pullBack target k).nodes.set source
              { f' with successors := f'.successors ++ [target] }).set target
                { k' with waitingOn := count } }) := by
  unfold edge at hrun
  obtain ⟨k, hk, hrun⟩ := bind_eq_some_iff.mp hrun
  split at hrun
  · next hstarted =>
    obtain ⟨f, hf, hrun⟩ := bind_eq_some_iff.mp hrun
    refine ⟨f, k, hf, hk, hstarted, ?_⟩
    split at hrun
    · next hfin => exact .inl ⟨hfin, (some.inj hrun).symm⟩
    · next hfin =>
      obtain ⟨f', hf', hrun⟩ := bind_eq_some_iff.mp hrun
      obtain ⟨k', hk', hrun⟩ := bind_eq_some_iff.mp hrun
      obtain ⟨count, hcount, hrun⟩ := bind_eq_some_iff.mp hrun
      exact .inr ⟨by simpa using hfin, f', k', count, hf', hk', hcount, (some.inj hrun).symm⟩
  · cases hrun

theorem node_pullBack (g : TaskGraph) {n : TaskNode} (hn : g.nodes[id]? = some n) (t : ℕ) :
    (g.pullBack id n).nodes[t]? = if t = id then
      some { n with state := if n.state = .ready then .waiting else n.state } else g.nodes[t]? := by
  unfold TaskGraph.pullBack
  by_cases hs : n.state = .ready
  · simp only [hs, if_true]
    exact TaskGraph.node_set hn
  · simp only [hs, if_false]
    by_cases ht : t = id
    · simp [ht, hn]
    · simp [ht]

theorem increase_eq {n count : ℕ} (h : increase checks n = some count)
    (hfits : checks = true ∨ n + 1 < U32) : count = n + 1 := by
  unfold increase at h
  split at h
  · exact (some.inj h).symm
  · next hbig =>
    obtain rfl := hfits.resolve_right hbig
    cases h

/-- An edge whose count fits keeps the invariant, and no task finishes by it. -/
theorem edge (hw : Inv w []) (hfits : (Op.edge source target).Fits checks w)
    (hrun : w.graph.edge checks source target = some g) :
    Inv { w with graph := g, edges := w.edges ++ [w.asked target source] } [] ∧
      (∀ t, g.finished t = w.graph.finished t) ∧
      g.waitingOn target = w.graph.waitingOn target + if w.graph.finished source then 0 else 1 := by
  obtain ⟨f, k, hf, hk, hstarted, ⟨hfin, rfl⟩ | ⟨hfin, f', k', count, hf', hk', hcount, rfl⟩⟩ :=
    edge_cases hrun
  · have hfinished : w.graph.finished source = true := by simp [TaskGraph.finished, hf, hfin]
    rw [asked, hfinished]
    exact ⟨hw.satisfied_edge (TaskGraph.lt_of_node hf) (TaskGraph.lt_of_node hk) hfinished,
      fun _ => rfl, rfl⟩
  · have hunfinished : w.graph.finished source = false := by simp [TaskGraph.finished, hf, hfin]
    have hback := node_pullBack w.graph hk
    -- the target waits again, and pulling it back finished nothing
    have hwaiting : (if k.state = .ready then State.waiting else k.state) = .waiting := by
      cases hs : k.state <;> simp_all [State.unstarted]
    have hkback := hback target
    rw [if_pos rfl, hwaiting] at hkback
    have hfback : ∀ t, (w.graph.pullBack target k).finished t = w.graph.finished t := by
      intro t
      simp only [TaskGraph.finished, hback, hwaiting]
      split
      · next ht =>
        subst ht
        cases hs : k.state <;> simp_all [State.unstarted, State.finished]
      · rfl
    have hnode := node_link hf' hk'
    -- the count that grows is the target's
    have hcountk : k'.waitingOn = k.waitingOn := by
      rw [TaskGraph.node_set hf'] at hk'
      split at hk'
      · next ht =>
        subst ht
        rw [hkback] at hf'
        obtain rfl := some.inj hf'
        obtain rfl := some.inj hk'
        rfl
      · rw [hkback] at hk'
        obtain rfl := some.inj hk'
        rfl
    have hk₀ : w.graph.waitingOn target = k.waitingOn := by simp [TaskGraph.waitingOn, hk]
    have hfit : checks = true ∨ k'.waitingOn + 1 < U32 := by
      rcases hfits with h | h | h
      · exact .inl h
      · rw [hunfinished] at h
        cases h
      · rw [hcountk, ← hk₀]
        exact .inr h
    obtain rfl := increase_eq hcount hfit
    refine ⟨?_, ?_, ?_⟩
    · rw [asked, hunfinished]
      have hdone : (w.graph.pullBack target k).isDone source = false := by
        by_contra h
        have := TaskGraph.finished_of_isDone (by simpa using h)
        rw [hfback, hunfinished] at this
        cases this
      exact (hw.pullBack hk).link (TaskGraph.lt_of_node hf') hkback rfl hdone hnode rfl
    · intro t
      rw [← hfback]
      unfold TaskGraph.finished
      rw [hnode]
      simp [Option.any_map, linked]
    · rw [hk₀, hunfinished]
      unfold TaskGraph.waitingOn
      rw [hnode, hkback]
      simp [linked]

theorem edges (checks : Bool) {deps : List ℕ} (hw : Inv w []) {g : TaskGraph}
    (hfits : checks = true ∨
      w.graph.waitingOn id + deps.countP (fun d => ¬w.graph.finished d) < U32)
    (hrun : deps.foldlM (fun g d => g.edge checks d id) w.graph = some g) :
    Inv { w with graph := g, edges := w.edges ++ deps.map (w.asked id) } [] := by
  induction deps generalizing w with
  | nil =>
    obtain rfl := some.inj hrun
    simpa using hw
  | cons d rest ih =>
    rw [foldlM_cons] at hrun
    obtain ⟨g₁, hedge, hrest⟩ := bind_eq_some_iff.mp hrun
    rw [countP_cons] at hfits
    obtain ⟨hw₁, hfin, hcount⟩ := hw.edge (by
      by_cases hd : w.graph.finished d
      · exact .inr (.inl hd)
      · rcases hfits with h | h
        · exact .inl h
        · refine .inr (.inr ?_)
          simp only [hd] at h
          simp at h
          omega) hedge
    have hasked : asked { w with graph := g₁, edges := w.edges ++ [w.asked id d] } =
        w.asked := by
      funext target source
      simp [asked, hfin]
    have := ih (w := { w with graph := g₁, edges := w.edges ++ [w.asked id d] }) hw₁ (by
      refine hfits.imp_right fun h => ?_
      simp only [hfin, hcount]
      by_cases hd : w.graph.finished d <;> simp [hd] at h ⊢ <;> omega) hrest
    rw [hasked] at this
    simpa using this

theorem addHeld {checks : Bool} (hw : Inv w []) {kind : TaskKind} {deps : List ℕ} {priority : ℕ}
    {g : TaskGraph} (hfits : (Op.addHeld kind deps priority).Fits checks w)
    (hrun : w.graph.addHeld checks kind deps priority = some (id, g)) :
    id = w.graph.nodes.length ∧
    Inv ⟨g, insert id w.held, w.edges ++ deps.map (w.asked id), w.returned⟩ [] := by
  unfold TaskGraph.addHeld at hrun
  obtain ⟨g₁, hedges, hpair⟩ := bind_eq_some_iff.mp hrun
  obtain ⟨rfl, rfl⟩ := Prod.mk.inj (some.inj hpair)
  refine ⟨rfl, ?_⟩
  have hfin : ∀ d, (w.graph.push kind priority).finished d = w.graph.finished d := by
    intro d
    unfold TaskGraph.finished
    rw [node_push]
    split
    · next hd => simp [hd, State.finished]
    · rfl
  have hcount : (w.graph.push kind priority).waitingOn w.graph.nodes.length = 1 := by
    simp [TaskGraph.waitingOn, node_push]
  have hasked : asked { w with
      graph := w.graph.push kind priority, held := insert w.graph.nodes.length w.held } =
        w.asked := by
    funext target source
    simp [asked, hfin]
  have := (hw.push kind priority).edges checks (by
    refine hfits.imp_right fun h => ?_
    simpa only [hfin, hcount] using h) hedges
  rw [hasked] at this
  exact this

theorem addWithPriority {checks : Bool} (hw : Inv w []) {kind : TaskKind} {deps : List ℕ}
    {priority : ℕ} {g : TaskGraph} (hfits : (Op.add kind deps priority).Fits checks w)
    (hrun : w.graph.addWithPriority checks kind deps priority = some (id, g)) :
    Inv ⟨g, w.held, w.edges ++ deps.map (w.asked id), w.returned⟩ [] := by
  unfold TaskGraph.addWithPriority at hrun
  obtain ⟨⟨id', g₁⟩, hheld, hrun⟩ := bind_eq_some_iff.mp hrun
  obtain ⟨g₂, hrelease, hpair⟩ := bind_eq_some_iff.mp hrun
  obtain ⟨rfl, rfl⟩ := Prod.mk.inj (some.inj hpair)
  obtain ⟨hid, hw₁⟩ := hw.addHeld hfits hheld
  obtain ⟨g₃, hg₃, hw₂⟩ := hw₁.release checks (Finset.mem_insert_self _ _)
  have hfresh : id' ∉ w.held := fun h => by
    have := hw.held_known h
    omega
  rw [hrelease] at hg₃
  obtain rfl := some.inj hg₃
  rw [Finset.erase_insert hfresh] at hw₂
  exact hw₂

/-! ### Tasks run -/

variable {order : SerialOrder} {popped : Option ℕ}

/-- What `pop` does: nothing, or it takes one position out of the queue. -/
theorem pop_cases (hrun : g.pop order = some (popped, g')) :
    popped = none ∧ g' = g ∨
      ∃ (pos id : ℕ) (n : TaskNode), popped = some id ∧ g.ready[pos]? = some id ∧
        g.nodes[id]? = some n ∧
        g' = ⟨g.nodes.set id { n with state := .running }, g.ready.eraseIdx pos⟩ := by
  unfold pop at hrun
  obtain ⟨pos, -, hrun⟩ := bind_eq_some_iff.mp hrun
  cases pos with
  | none =>
    obtain ⟨rfl, rfl⟩ := Prod.mk.inj (some.inj hrun)
    exact .inl ⟨rfl, rfl⟩
  | some pos =>
    cases hid : g.ready[pos]? with
    | none =>
      simp only [hid] at hrun
      obtain ⟨rfl, rfl⟩ := Prod.mk.inj (some.inj hrun)
      exact .inl ⟨rfl, rfl⟩
    | some id =>
      simp only [hid] at hrun
      obtain ⟨n, hn, hrun⟩ := bind_eq_some_iff.mp hrun
      obtain ⟨rfl, rfl⟩ := Prod.mk.inj (some.inj hrun)
      exact .inr ⟨pos, id, n, rfl, hid, hn, rfl⟩

theorem ready_of_position (hw : Inv w owed) {pos : ℕ} (hpos : w.graph.ready[pos]? = some id)
    (hn : w.graph.nodes[id]? = some n) : n.state = .ready := by
  obtain ⟨m, hm, hs⟩ := (hw.ready_iff id).mp (mem_of_getElem? hpos)
  rw [hn] at hm
  obtain rfl := some.inj hm
  exact hs

theorem not_returned (hw : Inv w owed) (hn : w.graph.nodes[id]? = some n) (hs : n.state = .ready) :
    id ∉ w.returned := by
  intro h
  have := hw.started h hn
  rw [hs] at this
  cases this

theorem pop (hw : Inv w []) (hrun : w.graph.pop order = some (popped, g)) :
    Inv ⟨g, w.held, w.edges, popped.toList ++ w.returned⟩ [] := by
  obtain ⟨rfl, rfl⟩ | ⟨pos, id, n, rfl, hpos, hn, rfl⟩ := pop_cases hrun
  · exact hw
  · have hs := hw.ready_of_position hpos hn
    have hmem : ∀ t, t ∈ w.graph.ready.eraseIdx pos ↔ t ≠ id ∧ t ∈ w.graph.ready := by
      intro t
      have hpos' := List.getElem?_eq_some_iff.mp hpos
      rw [mem_eraseIdx_iff_getElem?]
      constructor
      · rintro ⟨i, hi, ht⟩
        refine ⟨?_, mem_of_getElem? ht⟩
        rintro rfl
        obtain ⟨hlt, heq⟩ := List.getElem?_eq_some_iff.mp ht
        exact hi ((hw.ready_nodup.getElem_inj_iff).mp (heq.trans hpos'.2.symm))
      · rintro ⟨hne, ht⟩
        obtain ⟨i, hi⟩ := List.getElem?_of_mem ht
        refine ⟨i, ?_, hi⟩
        rintro rfl
        rw [hi] at hpos
        exact hne (some.inj hpos)
    have hset : Inv { w with
        graph := ⟨w.graph.nodes.set id { n with state := .running }, w.graph.ready.eraseIdx pos⟩ }
        [] := by
      refine hw.set hn rfl ?_ ?_ ?_ ?_ ?_ ?_ (fun _ _ => rfl) ?_
      · simp [hs]
      · simp [hs, State.finished]
      · exact hw.ready_nodup.sublist (eraseIdx_sublist _ _)
      · intro t
        by_cases ht : t = id <;> simp [hmem, ht]
      · intro h
        cases h
      · have hcount := hw.waitingOn hn
        exact hcount
      · intro _
        rfl
    have hlt := lt_of_node hn
    refine { hset with started := ?_, returned_known := ?_, returned_nodup := ?_ }
    · intro t m ht hm
      rcases mem_cons.mp ht with rfl | ht
      · have hrunning := node_set (t := t) (m := { n with state := .running }) hn
        rw [if_pos rfl] at hrunning
        rw [hrunning] at hm
        obtain rfl := some.inj hm
        rfl
      · exact hset.started ht hm
    · intro t ht
      rcases mem_cons.mp ht with rfl | ht
      · simpa using hlt
      · exact hset.returned_known ht
    · exact nodup_cons.mpr ⟨hw.not_returned hn hs, hw.returned_nodup⟩

theorem drainFrom {turns : ℕ} (hw : Inv w []) {out : List (ℕ × TaskKind)} {g : TaskGraph}
    (hrun : w.graph.drainFrom turns = some (out, g)) :
    Inv ⟨g, w.held, w.edges, (out.map Prod.fst).reverse ++ w.returned⟩ [] := by
  induction turns generalizing w out with
  | zero => cases hrun
  | succ turns ih =>
    rw [drainFrom] at hrun
    obtain ⟨⟨popped, g₁⟩, hpop, hrun⟩ := bind_eq_some_iff.mp hrun
    have hw₁ := hw.pop hpop
    cases popped with
    | none =>
      obtain ⟨rfl, rfl⟩ := Prod.mk.inj (some.inj hrun)
      exact hw₁
    | some id =>
      obtain ⟨n, -, hrun⟩ := bind_eq_some_iff.mp hrun
      obtain ⟨⟨rest, g₂⟩, hrest, hpair⟩ := bind_eq_some_iff.mp hrun
      obtain ⟨rfl, rfl⟩ := Prod.mk.inj (some.inj hpair)
      simpa using ih hw₁ hrest

/-- The edges out of a task that completes stop pending: one for each successor. -/
theorem pending_complete (hw : Inv w owed) (hn : w.graph.nodes[id]? = some n)
    (hdone : n.state ≠ .done) (hg : ∀ t, g.isDone t = if t = id then true else w.graph.isDone t)
    (t : ℕ) : w.pending t = World.pending { w with graph := g } t + n.successors.count t := by
  have hid : w.graph.isDone id = false := by simp [isDone, hn, hdone]
  have hsucc : n.successors.count t =
      (w.edges.filter fun e => e.source = id).countP fun e =>
        e.target = t ∧ e.counted ∧ ¬w.graph.isDone e.source := by
    rw [hw.successors hn, if_neg hdone, count, countP_map, countP_filter, countP_filter]
    refine countP_congr fun e _ => ?_
    by_cases he : e.source = id
    · simp [he, hid]
    · simp [he]
  have hrest : pending { w with graph := g } t =
      (w.edges.filter fun e => !decide (e.source = id)).countP fun e =>
        e.target = t ∧ e.counted ∧ ¬w.graph.isDone e.source := by
    rw [countP_filter]
    refine countP_congr fun e _ => ?_
    simp only [hg]
    by_cases he : e.source = id
    · simp [he]
    · simp [he]
  rw [hsucc, hrest, pending, Nat.add_comm]
  exact countP_eq_countP_filter_add _ _ _

/-- A task that was popped is marked done: its successors are owed a count each. -/
theorem markDone (hw : Inv w []) (hreturned : id ∈ w.returned) (hn : w.graph.nodes[id]? = some n)
    (hnd : n.state ≠ .done) :
    Inv { w with graph := { w.graph with
        nodes := w.graph.nodes.set id { n with state := .done, successors := [] } } } n.successors ∧
      ∀ t ∈ n.successors,
        t < (w.graph.nodes.set id { n with state := .done, successors := [] }).length := by
  have hns : n.state ≠ .ready := fun h => hw.not_returned hn h hreturned
  have hnode : ∀ t, (w.graph.nodes.set id { n with state := .done, successors := [] })[t]? =
      if t = id then some { n with state := .done, successors := [] } else w.graph.nodes[t]? :=
    fun t => node_set hn
  let g : TaskGraph := { w.graph with
    nodes := w.graph.nodes.set id { n with state := .done, successors := [] } }
  have hisDone : ∀ t, g.isDone t = if t = id then true else w.graph.isDone t := by
    intro t
    simp only [isDone, g, hnode]
    split <;> simp
  have hpending := hw.pending_complete hn hnd hisDone
  have howed : Inv { w with graph := g } n.successors :=
    { hw with
      ready_iff := by
        intro t
        show t ∈ w.graph.ready ↔ ∃ m, g.nodes[t]? = some m ∧ m.state = .ready
        rw [hw.ready_iff, hnode]
        split
        · next ht => simp [ht, hn, hns]
        · rfl
      settled := by
        intro t m hm hs
        rw [hnode] at hm
        split at hm
        · obtain rfl := some.inj hm
          cases hs
        · exact hw.settled hm hs
      waitingOn := by
        intro t m hm
        rw [hnode] at hm
        have hp := hpending t
        show m.waitingOn = w.guard t + _ + _
        split at hm
        · next ht =>
          obtain rfl := some.inj hm
          have := hw.waitingOn (ht ▸ hn)
          simp only [count_nil] at this ⊢
          omega
        · have := hw.waitingOn hm
          simp only [count_nil] at this
          omega
      successors := by
        intro f m hm
        rw [hnode] at hm
        split at hm
        · obtain rfl := some.inj hm
          rfl
        · exact hw.successors hm
      known := fun he => by simpa [g] using hw.known he
      satisfied := by
        intro e he hc
        have hfin := hw.satisfied he hc
        simp only [finished, g, hnode] at hfin ⊢
        split
        · rfl
        · exact hfin
      held_known := fun ht => by simpa [g] using hw.held_known ht
      started := by
        intro t m ht hm
        rw [hnode] at hm
        split at hm
        · obtain rfl := some.inj hm
          rfl
        · exact hw.started ht hm
      returned_known := fun ht => by simpa [g] using hw.returned_known ht }
  have hknown : ∀ t ∈ n.successors, t < g.nodes.length := by
    intro t ht
    rw [hw.successors hn, if_neg hnd] at ht
    obtain ⟨e, he, rfl⟩ := mem_map.mp ht
    simpa [g] using (hw.known (mem_filter.mp he).1).2
  exact ⟨howed, hknown⟩

/-- A task that was popped completes: what its successors are owed is paid off. -/
theorem complete (checks : Bool) (hw : Inv w []) (hreturned : id ∈ w.returned)
    (hdone : w.graph.isDone id = false) :
    ∃ g, w.graph.complete checks id = some g ∧ Inv { w with graph := g } [] := by
  obtain ⟨n, hn⟩ := exists_node (hw.returned_known hreturned)
  have hnd : n.state ≠ .done := by simpa [TaskGraph.isDone, hn] using hdone
  obtain ⟨howed, hknown⟩ := hw.markDone hreturned hn hnd
  obtain ⟨g', hg', hInv⟩ := howed.satisfy_all checks hknown
  exact ⟨g', by simpa [TaskGraph.complete, hn] using hg', hInv⟩

theorem cancelAll (hw : Inv w []) : Inv { w with graph := w.graph.cancelAll } [] := by
  have hnode : ∀ {t : ℕ} {m : TaskNode}, w.graph.cancelAll.nodes[t]? = some m →
      ∃ n : TaskNode, w.graph.nodes[t]? = some n ∧
        m = if n.state ≠ .done then { n with state := .cancelled } else n := by
    intro t m hm
    simp only [TaskGraph.cancelAll, getElem?_map, map_eq_some_iff] at hm
    obtain ⟨n, hn, rfl⟩ := hm
    exact ⟨n, hn, rfl⟩
  have hlen : w.graph.cancelAll.nodes.length = w.graph.nodes.length := by
    simp [TaskGraph.cancelAll]
  have hisDone : ∀ t, w.graph.cancelAll.isDone t = w.graph.isDone t := by
    intro t
    unfold TaskGraph.isDone
    simp only [TaskGraph.cancelAll, getElem?_map, Option.any_map]
    cases w.graph.nodes[t]? with
    | none => rfl
    | some n => by_cases hs : n.state = .done <;> simp [hs]
  have hpending : ∀ t,
      pending { w with graph := w.graph.cancelAll } t = w.pending t := by
    intro t
    simp only [pending, hisDone]
  exact
    { ready_nodup := nodup_nil
      ready_iff := by
        intro t
        refine ⟨fun h => absurd h not_mem_nil, ?_⟩
        rintro ⟨m, hm, hs⟩
        obtain ⟨n, -, rfl⟩ := hnode hm
        split at hs
        · cases hs
        · next hnd => exact absurd hs (by simp [not_not.mp hnd])
      settled := by
        intro t m hm hs
        obtain ⟨n, -, rfl⟩ := hnode hm
        split at hs
        · cases hs
        · next hnd => exact absurd hs (by simp [not_not.mp hnd])
      waitingOn := by
        intro t m hm
        obtain ⟨n, hn, rfl⟩ := hnode hm
        rw [hpending]
        have hcount := hw.waitingOn hn
        split <;> exact hcount
      successors := by
        intro f m hm
        obtain ⟨n, hn, rfl⟩ := hnode hm
        have hsucc := hw.successors hn
        by_cases hnd : n.state = .done
        · simpa [hnd] using hsucc
        · simpa [hnd] using hsucc
      known := fun he => by simpa only [hlen] using hw.known he
      satisfied := by
        intro e he hc
        have hsource := hw.known he
        show w.graph.cancelAll.finished e.source = true
        obtain ⟨n, hn⟩ := exists_node hsource.1
        simp only [TaskGraph.finished, TaskGraph.cancelAll, getElem?_map, hn]
        by_cases hnd : n.state = .done <;> simp [hnd, State.finished]
      held_known := fun ht => by simpa only [hlen] using hw.held_known ht
      started := by
        intro t m ht hm
        obtain ⟨n, -, rfl⟩ := hnode hm
        by_cases hnd : n.state = .done <;> simp [hnd, State.unstarted]
      returned_known := fun ht => by simpa only [hlen] using hw.returned_known ht
      returned_nodup := hw.returned_nodup }

/-! ### Every step keeps it -/

variable {w' : World}

theorem does {op : Op} (hw : Inv w []) (hfits : op.Fits checks w) (hdoes : Does checks w op w')
    : Inv w' [] := by
  cases hdoes with
  | add hrun => exact hw.addWithPriority hfits hrun
  | addHeld hrun => exact (hw.addHeld hfits hrun).2
  | release hheld hrun =>
    obtain ⟨g, hg, hInv⟩ := hw.release checks hheld
    rw [hrun] at hg
    obtain rfl := some.inj hg
    exact hInv
  | edge hrun => exact (hw.edge hfits hrun).1
  | pop hrun => exact hw.pop hrun
  | complete hreturned hdone hrun =>
    obtain ⟨g, hg, hInv⟩ := hw.complete checks hreturned hdone
    rw [hrun] at hg
    obtain rfl := some.inj hg
    exact hInv
  | cancelAll => exact hw.cancelAll

theorem step {call : Call} (hw : Inv w []) (hfits : call.Fits checks w)
    (hstep : Step checks w call w') : Inv w' [] := by
  cases hstep with
  | serial hdoes => exact hw.does hfits hdoes
  | drain hdrain => exact hw.drainFrom hdrain
  | locked hdoes hdrain => exact (hw.does hfits hdoes).drainFrom hdrain

end Inv

end HdLang.Sched
