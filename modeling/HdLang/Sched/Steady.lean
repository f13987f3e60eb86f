import HdLang.Sched.Safety
import Mathlib.Data.Fintype.EquivFin
import Mathlib.Order.WellFounded

/-!
# Steady graphs

In a graph on which nothing was cancelled the state of a task says how it stands: a waiting task has
a count left, a ready one has none, and the running and the finished ones are those that `pop` gave
(`TaskNode.Steady`). Along the edges into a task that was given, the sources were given before it
(`Steady.ordered`). So a graph that has come to rest has run all tasks but those that are stuck: on or
behind a cycle of edges, or behind a task that was not released (`Steady.rest`).
-/

namespace HdLang.Sched

open List Option TaskGraph

/-- How the state of a task stands to its count and to whether it was popped. -/
def TaskNode.Steady (n : TaskNode) (popped : Prop) : Prop :=
  match n.state with
  | .waiting => 0 < n.waitingOn ∧ ¬popped
  | .ready => n.waitingOn = 0 ∧ ¬popped
  | .running | .done => n.waitingOn = 0 ∧ popped
  | .cancelled => False

namespace TaskNode.Steady

variable {n m : TaskNode} {popped : Prop}

theorem congr (h : n.Steady popped) (hstate : m.state = n.state)
    (hcount : m.waitingOn = n.waitingOn) : m.Steady popped := by
  unfold TaskNode.Steady at *
  rwa [hstate, hcount]

theorem state_of_pos (h : n.Steady popped) (hpos : 0 < n.waitingOn) : n.state = .waiting := by
  unfold TaskNode.Steady at h
  cases hs : n.state <;> simp only [hs] at h <;> first | rfl | omega

theorem not_popped (h : n.Steady popped) (hs : n.state.unstarted = true) : ¬popped := by
  unfold TaskNode.Steady at h
  cases hstate : n.state <;> simp only [hstate] at h hs
  · exact h.2
  · exact h.2
  all_goals cases hs

theorem finished_iff (h : n.Steady popped) : n.state.finished = true ↔ n.state = .done := by
  unfold TaskNode.Steady at h
  cases hs : n.state <;> simp_all [State.finished]

end TaskNode.Steady

namespace TaskGraph

/-- Every task is steady; `popped` are those that `pop` gave. -/
def Steady (g : TaskGraph) (popped : ℕ → Prop) : Prop :=
  ∀ (t : ℕ) (n : TaskNode), g.nodes[t]? = some n → n.Steady (popped t)

variable {g g' : TaskGraph} {popped : ℕ → Prop} {id t : ℕ} {n : TaskNode} {checks : Bool}

theorem Steady.set {r : List ℕ} {m : TaskNode} (hg : g.Steady popped) (hn : g.nodes[id]? = some n)
    (hm : m.Steady (popped id)) : Steady ⟨g.nodes.set id m, r⟩ popped := by
  intro t k hk
  rw [node_set hn] at hk
  split at hk
  · next ht =>
    obtain rfl := some.inj hk
    exact ht ▸ hm
  · exact hg t k hk

theorem Steady.satisfy (hg : g.Steady popped) (hpos : 0 < g.waitingOn id)
    (hrun : g.satisfy checks id = some g') : g'.Steady popped := by
  unfold TaskGraph.satisfy at hrun
  obtain ⟨n, hn, hrun⟩ := bind_eq_some_iff.mp hrun
  obtain ⟨count, hcount, hrun⟩ := bind_eq_some_iff.mp hrun
  have hpos : 0 < n.waitingOn := by simpa [waitingOn, hn] using hpos
  have hwaiting := (hg id n hn).state_of_pos hpos
  have hsteady := hg id n hn
  rw [decrease, if_pos hpos] at hcount
  obtain rfl := some.inj hcount
  unfold TaskNode.Steady at hsteady
  simp only [hwaiting] at hsteady
  split at hrun
  · next hzero =>
    obtain rfl := some.inj hrun
    exact hg.set hn ⟨hzero.1, hsteady.2⟩
  · next hzero =>
    obtain rfl := some.inj hrun
    refine hg.set hn ?_
    unfold TaskNode.Steady
    simp only [hwaiting]
    exact ⟨Nat.pos_of_ne_zero fun h => hzero ⟨h, hwaiting⟩, hsteady.2⟩

theorem Steady.push (hg : g.Steady popped) (hnew : ¬popped g.nodes.length) (kind : TaskKind)
    (priority : ℕ) : (g.push kind priority).Steady popped := by
  intro t n hn
  rw [Inv.node_push] at hn
  split at hn
  · next ht =>
    obtain rfl := some.inj hn
    exact ⟨Nat.one_pos, ht ▸ hnew⟩
  · exact hg t n hn

/-- An edge changes the state and the count of its target only, which waits for an unfinished
source. -/
theorem edge_node {source target : ℕ} (hrun : g.edge checks source target = some g')
    (hn : g'.nodes[t]? = some n) :
    ∃ m, g.nodes[t]? = some m ∧
      (n.state = m.state ∧ n.waitingOn = m.waitingOn ∨
        t = target ∧ n.state = .waiting ∧ g.finished source = false ∧ m.state.unstarted = true) := by
  obtain ⟨f, k, hf, hk, hstarted, ⟨-, rfl⟩ | ⟨hfin, f', k', count, hf', hk', -, rfl⟩⟩ :=
    Inv.edge_cases hrun
  · exact ⟨n, hn, .inl ⟨rfl, rfl⟩⟩
  · have hback := Inv.node_pullBack g hk
    have hunfinished : g.finished source = false := by simp [finished, hf, hfin]
    have hwaiting : (if k.state = .ready then State.waiting else k.state) = .waiting := by
      cases hs : k.state <;> simp_all [State.unstarted]
    rw [node_set (g := ⟨_, []⟩) hk'] at hn
    by_cases ht : t = target
    · rw [if_pos ht] at hn
      obtain rfl := some.inj hn
      refine ⟨k, ht ▸ hk, .inr ⟨ht, ?_, hunfinished, hstarted⟩⟩
      show k'.state = .waiting
      rw [node_set hf', hback] at hk'
      split at hk'
      · next hts =>
        obtain rfl := some.inj hk'
        rw [hback, if_pos hts.symm] at hf'
        obtain rfl := some.inj hf'
        exact hwaiting
      · rw [if_pos rfl] at hk'
        obtain rfl := some.inj hk'
        exact hwaiting
    · rw [if_neg ht, node_set hf'] at hn
      split at hn
      · next hts =>
        obtain rfl := some.inj hn
        rw [hback, if_neg (hts ▸ ht)] at hf'
        exact ⟨f', hts ▸ hf', .inl ⟨rfl, rfl⟩⟩
      · rw [hback, if_neg ht] at hn
        exact ⟨n, hn, .inl ⟨rfl, rfl⟩⟩

/-- Edges into a task change its state and count only. -/
theorem edges_node {deps : List ℕ} (hrun : deps.foldlM (fun g d => g.edge checks d id) g = some g')
    (hn : g'.nodes[t]? = some n) :
    ∃ m, g.nodes[t]? = some m ∧
      (n.state = m.state ∧ n.waitingOn = m.waitingOn ∨ t = id ∧ n.state = .waiting) := by
  induction deps generalizing g with
  | nil =>
    obtain rfl := some.inj hrun
    exact ⟨n, hn, .inl ⟨rfl, rfl⟩⟩
  | cons d rest ih =>
    rw [foldlM_cons] at hrun
    obtain ⟨g₁, hedge, hrest⟩ := bind_eq_some_iff.mp hrun
    obtain ⟨m₁, hm₁, h₁⟩ := ih hrest
    obtain ⟨m, hm, h⟩ := edge_node hedge hm₁
    refine ⟨m, hm, ?_⟩
    rcases h₁ with ⟨hs₁, hc₁⟩ | h₁
    · rcases h with ⟨hs, hc⟩ | ⟨ht, hs, -⟩
      · exact .inl ⟨hs₁.trans hs, hc₁.trans hc⟩
      · exact .inr ⟨ht, hs₁.trans hs⟩
    · exact .inr h₁

end TaskGraph

/-! ### Worlds -/

/-- Nothing was cancelled, and what was popped was popped in the order of the edges. -/
structure Steady (w : World) : Prop where
  graph : w.graph.Steady (· ∈ w.returned)
  ordered : ∀ l t r, w.returned = l ++ t :: r → ∀ e ∈ w.edges, e.target = t → e.source ∈ r

namespace Steady

variable {w w' : World} {checks : Bool} {id t : ℕ} {n : TaskNode}

theorem start : Steady World.start where
  graph t n h := by simp [World.start, empty] at h
  ordered l t r h := by simp [World.start] at h

theorem finished_iff (hw : Steady w) (t : ℕ) : w.graph.finished t = w.graph.isDone t := by
  unfold finished isDone
  cases hn : w.graph.nodes[t]? with
  | none => rfl
  | some n =>
    rw [any_some, any_some, Bool.eq_iff_iff, decide_eq_true_iff]
    exact (hw.graph t n hn).finished_iff

theorem more {edges : List Edge} {g : TaskGraph} {held : Finset ℕ} (hw : Steady w)
    (hg : g.Steady (· ∈ w.returned)) (hnew : ∀ e ∈ edges, e.target ∉ w.returned) :
    Steady ⟨g, held, w.edges ++ edges, w.returned⟩ where
  graph := hg
  ordered l t r h e he ht := by
    rcases mem_append.mp he with he | he
    · exact hw.ordered l t r h e he ht
    · have hmem : t ∈ w.returned := h ▸ mem_append_right l mem_cons_self
      exact absurd (ht ▸ hmem) (hnew e he)

section

variable (hinv : Inv w []) (hw : Steady w)
include hinv hw

theorem edge {source target : ℕ} {g : TaskGraph} (hfits : (Op.edge source target).Fits checks w)
    (hrun : w.graph.edge checks source target = some g) :
    Steady ⟨g, w.held, w.edges ++ [w.asked target source], w.returned⟩ := by
  obtain ⟨-, -, hcount⟩ := hinv.edge hfits hrun
  obtain ⟨-, k, -, hk, hstarted, -⟩ := Inv.edge_cases hrun
  refine hw.more (fun t n hn => ?_) fun e he => ?_
  · obtain ⟨m, hm, ⟨hs, hc⟩ | ⟨rfl, hs, hsource, hunstarted⟩⟩ := edge_node hrun hn
    · exact (hw.graph t m hm).congr hs hc
    · rw [hsource, if_neg Bool.false_ne_true] at hcount
      have hpos : 0 < n.waitingOn := by
        have : g.waitingOn t = n.waitingOn := by simp [waitingOn, hn]
        omega
      unfold TaskNode.Steady
      simp only [hs]
      exact ⟨hpos, (hw.graph t m hm).not_popped hunstarted⟩
  · obtain rfl := mem_singleton.mp he
    exact (hw.graph target k hk).not_popped hstarted

theorem addHeld {kind : TaskKind} {deps : List ℕ} {priority : ℕ} {g : TaskGraph}
    (hfits : (Op.addHeld kind deps priority).Fits checks w)
    (hrun : w.graph.addHeld checks kind deps priority = some (id, g)) :
    Steady ⟨g, insert id w.held, w.edges ++ deps.map (w.asked id), w.returned⟩ := by
  obtain ⟨rfl, hinv'⟩ := hinv.addHeld hfits hrun
  have hfresh : w.graph.nodes.length ∉ w.returned := fun h => (hinv.returned_known h).ne rfl
  unfold addHeld at hrun
  obtain ⟨g₁, hedges, hpair⟩ := bind_eq_some_iff.mp hrun
  obtain ⟨-, rfl⟩ := Prod.mk.inj (some.inj hpair)
  refine hw.more (fun t n hn => ?_) fun e he => ?_
  · obtain ⟨m, hm, ⟨hs, hc⟩ | ⟨rfl, hs⟩⟩ := edges_node hedges hn
    · exact (hw.graph.push hfresh kind priority t m hm).congr hs hc
    · have hcount := hinv'.waitingOn_eq hn
      have hguard : World.guard ⟨g₁, insert w.graph.nodes.length w.held,
          w.edges ++ deps.map (w.asked w.graph.nodes.length), w.returned⟩ w.graph.nodes.length = 1 :=
        if_pos (Finset.mem_insert_self _ _)
      unfold TaskNode.Steady
      simp only [hs]
      exact ⟨by omega, hfresh⟩
  · obtain ⟨d, -, rfl⟩ := mem_map.mp he
    exact hfresh

theorem release {g : TaskGraph} (hheld : id ∈ w.held) (hrun : w.graph.release checks id = some g) :
    Steady ⟨g, w.held.erase id, w.edges, w.returned⟩ :=
  ⟨hw.graph.satisfy (hinv.safe.release_fits hheld) hrun, hw.ordered⟩

theorem addWithPriority {kind : TaskKind} {deps : List ℕ} {priority : ℕ} {g : TaskGraph}
    (hfits : (Op.add kind deps priority).Fits checks w)
    (hrun : w.graph.addWithPriority checks kind deps priority = some (id, g)) :
    Steady ⟨g, w.held, w.edges ++ deps.map (w.asked id), w.returned⟩ := by
  unfold TaskGraph.addWithPriority at hrun
  obtain ⟨⟨id', g₁⟩, hheld, hrun⟩ := bind_eq_some_iff.mp hrun
  obtain ⟨g₂, hrelease, hpair⟩ := bind_eq_some_iff.mp hrun
  obtain ⟨rfl, rfl⟩ := Prod.mk.inj (some.inj hpair)
  have h := (hw.addHeld hinv hfits hheld).release (hinv.addHeld hfits hheld).2
    (Finset.mem_insert_self _ _) hrelease
  exact ⟨h.graph, h.ordered⟩

theorem pop {order : SerialOrder} {popped : Option ℕ} {g : TaskGraph}
    (hrun : w.graph.pop order = some (popped, g)) :
    Steady ⟨g, w.held, w.edges, popped.toList ++ w.returned⟩ := by
  obtain ⟨rfl, rfl⟩ | ⟨pos, id, n, rfl, hpos, hn, rfl⟩ := Inv.pop_cases hrun
  · exact hw
  · have hs := hinv.ready_of_position hpos hn
    have hzero := hinv.settled hn hs
    refine ⟨fun t k hk => ?_, fun l t r h e he ht => ?_⟩
    · rw [node_set hn] at hk
      split at hk
      · next ht =>
        obtain rfl := some.inj hk
        exact ⟨hzero, mem_cons.mpr (.inl ht)⟩
      · next ht =>
        have hsteady := hw.graph t k hk
        have hmem : (t ∈ id :: w.returned) = (t ∈ w.returned) := by simp [ht]
        show k.Steady (t ∈ id :: w.returned)
        rw [hmem]
        exact hsteady
    · cases l with
      | nil =>
        obtain ⟨rfl, rfl⟩ := cons.inj h
        have hfin := hinv.sources_finished hn hzero he ht
        rw [hw.finished_iff, isDone, Option.any_eq_true] at hfin
        obtain ⟨k, hk, hdone⟩ := hfin
        have hsteady := hw.graph _ k hk
        unfold TaskNode.Steady at hsteady
        simp only [of_decide_eq_true hdone] at hsteady
        exact hsteady.2
      | cons a l => exact hw.ordered l t r (cons.inj h).2 e he ht

theorem drainFrom {turns : ℕ} {out : List (ℕ × TaskKind)} {g : TaskGraph}
    (hrun : w.graph.drainFrom turns = some (out, g)) :
    Steady ⟨g, w.held, w.edges, (out.map Prod.fst).reverse ++ w.returned⟩ := by
  induction turns generalizing w out with
  | zero => cases hrun
  | succ turns ih =>
    rw [drainFrom] at hrun
    obtain ⟨⟨popped, g₁⟩, hpop, hrun⟩ := bind_eq_some_iff.mp hrun
    have hinv₁ := hinv.pop hpop
    have hw₁ := hw.pop hinv hpop
    cases popped with
    | none =>
      obtain ⟨rfl, rfl⟩ := Prod.mk.inj (some.inj hrun)
      exact hw₁
    | some id =>
      obtain ⟨n, -, hrun⟩ := bind_eq_some_iff.mp hrun
      obtain ⟨⟨rest, g₂⟩, hrest, hpair⟩ := bind_eq_some_iff.mp hrun
      obtain ⟨rfl, rfl⟩ := Prod.mk.inj (some.inj hpair)
      simpa using ih hinv₁ hw₁ hrest

end

theorem satisfy_all {owed : List ℕ} (hinv : Inv w owed) (hw : Steady w)
    (howed : ∀ t ∈ owed, t < w.graph.nodes.length) {g : TaskGraph}
    (hrun : owed.foldlM (fun g s => g.satisfy checks s) w.graph = some g) :
    Steady { w with graph := g } := by
  induction owed generalizing w with
  | nil =>
    obtain rfl := some.inj hrun
    exact hw
  | cons s rest ih =>
    rw [foldlM_cons] at hrun
    obtain ⟨g₁, hg₁, hrest⟩ := bind_eq_some_iff.mp hrun
    obtain ⟨g₂, hg₂, hinv₂, hlen⟩ := hinv.satisfy checks (howed s mem_cons_self)
    obtain rfl := some.inj (hg₁.symm.trans hg₂)
    have hpos : 0 < w.graph.waitingOn s := by
      obtain ⟨n, hn⟩ := Inv.exists_node (howed s mem_cons_self)
      have hcount := hinv.waitingOn hn
      rw [count_cons_self] at hcount
      have : w.graph.waitingOn s = n.waitingOn := by simp [waitingOn, hn]
      omega
    refine ih (w := { w with graph := g₁ }) hinv₂ ⟨hw.graph.satisfy hpos hg₁, hw.ordered⟩
      (fun t ht => ?_) hrest
    rw [hlen]
    exact howed t (mem_cons_of_mem s ht)

theorem complete (hinv : Inv w []) (hw : Steady w) (hreturned : id ∈ w.returned)
    (hdone : w.graph.isDone id = false) {g : TaskGraph} (hrun : w.graph.complete checks id = some g)
    : Steady { w with graph := g } := by
  unfold TaskGraph.complete at hrun
  obtain ⟨n, hn, hrun⟩ := bind_eq_some_iff.mp hrun
  have hnd : n.state ≠ .done := by simpa [TaskGraph.isDone, hn] using hdone
  obtain ⟨howed, hknown⟩ := hinv.markDone hreturned hn hnd
  have hzero : n.waitingOn = 0 := by
    have hsteady := hw.graph id n hn
    have hstarted := hinv.started hreturned hn
    unfold TaskNode.Steady at hsteady
    cases hs : n.state <;> simp only [hs] at hsteady hstarted
    case waiting => cases hstarted
    case ready => exact hsteady.1
    case running => exact hsteady.1
    case done => exact hsteady.1
  exact satisfy_all howed ⟨hw.graph.set hn ⟨hzero, hreturned⟩, hw.ordered⟩ hknown hrun

theorem does {op : Op} (hinv : Inv w []) (hw : Steady w) (hfits : op.Fits checks w)
    (hop : op ≠ .cancelAll) (hdoes : Does checks w op w') : Steady w' := by
  cases hdoes with
  | add hrun => exact hw.addWithPriority hinv hfits hrun
  | addHeld hrun => exact hw.addHeld hinv hfits hrun
  | release hheld hrun => exact hw.release hinv hheld hrun
  | edge hrun => exact hw.edge hinv hfits hrun
  | pop hrun => exact hw.pop hinv hrun
  | complete hreturned hdone hrun => exact hw.complete hinv hreturned hdone hrun
  | cancelAll => exact absurd rfl hop

end Steady

/-! ### Stuck tasks -/

namespace World

variable (w : World)

/-- An edge from `s` to `t` was asked for. -/
def Edged (s t : ℕ) : Prop := ∃ e ∈ w.edges, e.source = s ∧ e.target = t

/-- On or behind a cycle of edges, or an unreleased task or behind one. -/
def Stuck (t : ℕ) : Prop :=
  ∃ s, Relation.ReflTransGen w.Edged s t ∧ (s ∈ w.held ∨ Relation.TransGen w.Edged s s)

/-- No task is ready or running. -/
def Rests : Prop :=
  ∀ (t : ℕ) (n : TaskNode), w.graph.nodes[t]? = some n → n.state ≠ .ready ∧ n.state ≠ .running

end World

namespace Steady

variable {w : World} {s t : ℕ} {n : TaskNode}

/-- The source of an edge into a popped task was popped before it. -/
theorem returned_source (hw : Steady w) (hst : w.Edged s t) {l r : List ℕ}
    (h : w.returned = l ++ t :: r) : s ∈ r := by
  obtain ⟨e, he, rfl, ht⟩ := hst
  exact hw.ordered l t r h e he ht

theorem returned_behind (hw : Steady w) (hst : Relation.TransGen w.Edged s t) {l r : List ℕ}
    (h : w.returned = l ++ t :: r) : s ∈ r := by
  induction hst generalizing l r with
  | single hst => exact hw.returned_source hst h
  | tail _ hst ih =>
    have hmem := hw.returned_source hst h
    obtain ⟨l', r', rfl⟩ := append_of_mem hmem
    have hs : s ∈ r' := ih (l := l ++ _ :: l') (by rw [h, append_assoc]; rfl)
    exact mem_append_right l' (mem_cons_of_mem _ hs)

section

variable (hinv : Inv w []) (hw : Steady w)
include hinv hw

theorem not_stuck (ht : t ∈ w.returned) : ¬w.Stuck t := by
  rintro ⟨s, hst, hs⟩
  have hmem : s ∈ w.returned := by
    rcases Relation.reflTransGen_iff_eq_or_transGen.mp hst with rfl | hst
    · exact ht
    · obtain ⟨l, r, h⟩ := append_of_mem ht
      exact h ▸ mem_append_right l (mem_cons_of_mem _ (hw.returned_behind hst h))
  rcases hs with hheld | hcycle
  · obtain ⟨n, hn⟩ := Inv.exists_node (hinv.returned_known hmem)
    have hcount := hinv.waitingOn_eq hn
    have hguard : w.guard s = 1 := if_pos hheld
    have hsteady := hw.graph s n hn
    have hpos := hsteady.state_of_pos (by omega)
    exact hsteady.not_popped (by rw [hpos]; rfl) hmem
  · obtain ⟨l, r, h⟩ := append_of_mem hmem
    obtain ⟨l', r', rfl⟩ := append_of_mem (hw.returned_behind hcycle h)
    have hnodup := hinv.returned_nodup
    rw [h] at hnodup
    have hcons := (nodup_append.mp hnodup).2.1
    exact (nodup_cons.mp hcons).1 (mem_append_right l' mem_cons_self)

section

variable (hrest : w.Rests) (ht : t < w.graph.nodes.length)
include hrest ht

/-- What a task at rest that was not popped waits for. -/
theorem waits_for (hnot : t ∉ w.returned) :
    t ∈ w.held ∨ ∃ s, w.Edged s t ∧ s < w.graph.nodes.length ∧ s ∉ w.returned := by
  obtain ⟨n, hn⟩ := Inv.exists_node ht
  have hsteady := hw.graph t n hn
  have hcount := hinv.waitingOn_eq hn
  have hpos : 0 < n.waitingOn := by
    obtain ⟨hready, hrunning⟩ := hrest t n hn
    unfold TaskNode.Steady at hsteady
    cases hs : n.state <;> simp only [hs] at hsteady
    case waiting => exact hsteady.1
    case ready => exact absurd hs hready
    case running => exact absurd hs hrunning
    case done => exact absurd hsteady.2 hnot
  by_cases hheld : t ∈ w.held
  · exact .inl hheld
  · have hguard : w.guard t = 0 := if_neg hheld
    have hpending : 0 < w.pending t := by omega
    obtain ⟨e, he, hedge⟩ := countP_pos_iff.mp hpending
    obtain ⟨htarget, -, hdone⟩ : e.target = t ∧ e.counted = true ∧
        ¬w.graph.isDone e.source = true := by simpa using hedge
    refine .inr ⟨e.source, ⟨e, he, rfl, htarget⟩, (hinv.known he).1, fun hreturned => hdone ?_⟩
    obtain ⟨k, hk⟩ := Inv.exists_node (hinv.known he).1
    have hstarted := hinv.started hreturned hk
    have hsource := hw.graph e.source k hk
    have hrunning := (hrest e.source k hk).2
    unfold TaskNode.Steady at hsource
    have hkdone : k.state = .done := by
      cases hs : k.state <;> simp only [hs] at hsource hstarted
      case waiting => cases hstarted
      case ready => cases hstarted
      case running => exact absurd hs hrunning
      case done => rfl
    simp [isDone, hk, hkdone]

/-- A task at rest that was not popped is stuck: else what it waits for, and so on, would never end. -/
theorem stuck_of_not_returned (hnot : t ∉ w.returned) : w.Stuck t := by
  let before (a b : Fin w.graph.nodes.length) : Prop := Relation.TransGen w.Edged a b ∧ ¬w.Stuck b
  have : IsTrans (Fin w.graph.nodes.length) before :=
    ⟨fun _ _ _ hab hbc => ⟨hab.1.trans hbc.1, hbc.2⟩⟩
  have : Std.Irrefl before := ⟨fun a ha => ha.2 ⟨a, .refl, .inr ha.1⟩⟩
  have hwf : WellFounded before := Finite.wellFounded_of_trans_of_irrefl before
  have key : ∀ t : Fin w.graph.nodes.length, (t : ℕ) ∉ w.returned → w.Stuck t := by
    intro t
    induction t using hwf.induction with
    | _ t ih =>
      intro hnot
      by_contra hstuck
      rcases hw.waits_for hinv hrest t.isLt hnot with hheld | ⟨s, hst, hs, hsnot⟩
      · exact hstuck ⟨t, .refl, .inl hheld⟩
      · obtain ⟨u, hus, hu⟩ := ih ⟨s, hs⟩ ⟨.single hst, hstuck⟩ hsnot
        exact hstuck ⟨u, hus.tail hst, hu⟩
  exact key ⟨t, ht⟩ hnot

/-- **At rest** the popped tasks are those that are not stuck. -/
theorem returned_iff : t ∈ w.returned ↔ ¬w.Stuck t :=
  ⟨hw.not_stuck hinv, fun h => not_not.mp fun hnot => h (hw.stuck_of_not_returned hinv hrest ht hnot)⟩

end

end

theorem countP_nodes (f : TaskNode → Bool) (nodes : List TaskNode) :
    (nodes.filter f).length =
      ((List.range nodes.length).filter fun t => (nodes[t]?).any f).length := by
  induction nodes using reverseRecOn with
  | nil => rfl
  | append_singleton nodes n ih =>
    have hsame : (range nodes.length).filter (fun t => ((nodes ++ [n])[t]?).any f) =
        (range nodes.length).filter fun t => (nodes[t]?).any f :=
      filter_congr fun t ht => by rw [getElem?_append_left (mem_range.mp ht)]
    rw [filter_append, length_append, length_append, length_singleton, range_succ, filter_append,
      length_append, hsame, ih]
    congr 1
    rw [filter_singleton, filter_singleton, getElem?_concat_length, any_some]
    cases f n <;> rfl

/-- At rest every task was popped or is unfinished. -/
theorem unfinished_add (hinv : Inv w []) (hw : Steady w) (hrest : w.Rests) :
    w.graph.unfinished + w.returned.length = w.graph.nodes.length := by
  have hperm : ((range w.graph.nodes.length).filter fun t => w.graph.finished t).Perm
      w.returned := by
    refine (perm_ext_iff_of_nodup (nodup_range.filter _) hinv.returned_nodup).mpr fun t => ?_
    rw [mem_filter, mem_range]
    constructor
    · rintro ⟨ht, hfin⟩
      by_contra hnot
      obtain ⟨n, hn⟩ := Inv.exists_node ht
      have hsteady := hw.graph t n hn
      have hdone : n.state = .done := hsteady.finished_iff.mp (by
        simpa [finished, hn] using hfin)
      unfold TaskNode.Steady at hsteady
      simp only [hdone] at hsteady
      exact hnot hsteady.2
    · intro ht
      refine ⟨hinv.returned_known ht, ?_⟩
      obtain ⟨n, hn⟩ := Inv.exists_node (hinv.returned_known ht)
      have hstarted := hinv.started ht hn
      have hrunning := (hrest t n hn).2
      have hsteady := hw.graph t n hn
      unfold TaskNode.Steady at hsteady
      cases hs : n.state <;> simp only [hs] at hsteady hstarted
      case waiting => cases hstarted
      case ready => cases hstarted
      case running => exact absurd hs hrunning
      case done => simp [finished, hn, hs, State.finished]
  have hsplit := length_eq_length_filter_add (l := w.graph.nodes) fun n => n.state.finished
  have hfinished := countP_nodes (fun n => n.state.finished) w.graph.nodes
  have hlength := hperm.length_eq
  unfold unfinished
  unfold finished at hlength
  omega

/-- At rest no task is unfinished when none is stuck. -/
theorem unfinished_eq_zero (hinv : Inv w []) (hw : Steady w) (hrest : w.Rests) :
    w.graph.unfinished = 0 ↔ ∀ t, ¬w.Stuck t := by
  have hadd := hw.unfinished_add hinv hrest
  have hsub : w.returned.toFinset ⊆ Finset.range w.graph.nodes.length := fun t ht =>
    Finset.mem_range.mpr (hinv.returned_known (mem_toFinset.mp ht))
  have hcard := toFinset_card_of_nodup hinv.returned_nodup
  constructor
  · rintro hzero t hstuck
    have hall : w.returned.toFinset = Finset.range w.graph.nodes.length := by
      refine Finset.eq_of_subset_of_card_le hsub ?_
      rw [Finset.card_range, hcard]
      omega
    have ht : t < w.graph.nodes.length := by
      obtain ⟨s, hst, hs⟩ := hstuck
      rcases Relation.reflTransGen_iff_eq_or_transGen.mp hst with rfl | hst
      · rcases hs with hheld | hcycle
        · exact hinv.held_known hheld
        · obtain ⟨-, -, e, he, -, rfl⟩ := Relation.TransGen.tail'_iff.mp hcycle
          exact (hinv.known he).2
      · obtain ⟨-, -, e, he, -, rfl⟩ := Relation.TransGen.tail'_iff.mp hst
        exact (hinv.known he).2
    have hmem : t ∈ w.returned.toFinset := hall ▸ Finset.mem_range.mpr ht
    exact hw.not_stuck hinv (mem_toFinset.mp hmem) hstuck
  · intro hnone
    have hall : Finset.range w.graph.nodes.length ⊆ w.returned.toFinset := fun t ht =>
      mem_toFinset.mpr ((hw.returned_iff hinv hrest (Finset.mem_range.mp ht)).mpr (hnone t))
    have hle := Finset.card_le_card hall
    rw [Finset.card_range, hcard] at hle
    omega

end Steady

end HdLang.Sched
