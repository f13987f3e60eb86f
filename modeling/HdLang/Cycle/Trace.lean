import HdLang.Cycle.Graph

/-!
# Tracing

What `visit` does with one reference, in each mode, and what runs through a whole trace: a trace of
`b` visits the targets of `b` in order, and what each visit keeps the trace keeps. `Still` is what
tracing leaves alone.
-/

namespace HdLang

open Ensures

namespace Cycle

open RefGraph

variable {E : Stop → Prop} {s : State} {b v n : ℕ} {c : Color} {m : Mode}

/-! ### The primitives -/

@[simp] theorem ensures_color {Q : Color → State → Prop} :
    Ensures E (color b) Q s ↔ Q (s.colorOf b) s := by
  rw [color, bind_iff, get_iff, pure_iff]
  rfl

@[simp] theorem ensures_takesPart {Q : Bool → State → Prop} :
    Ensures E (takesPart b) Q s ↔ Q (s.graph.part b) s := by
  rw [takesPart, bind_iff, get_iff, pure_iff]
  rfl

@[simp] theorem ensures_load {Q : ℕ → State → Prop} : Ensures E (load b) Q s ↔ Q (s.count b) s := by
  rw [load, bind_iff, get_iff, pure_iff]
  rfl

@[simp] theorem ensures_store {Q : Unit → State → Prop} :
    Ensures E (store b n) Q s ↔ Q () (s.counted b n) := modify_iff

@[simp] theorem ensures_paint {Q : Unit → State → Prop} :
    Ensures E (paint b c) Q s ↔ Q () (s.painted b c) := modify_iff

@[simp] theorem ensures_pushStack {Q : Unit → State → Prop} :
    Ensures E (pushStack v) Q s ↔ Q () (s.pushed v) := modify_iff

@[simp] theorem ensures_setMode {Q : Unit → State → Prop} :
    Ensures E (setMode m) Q s ↔ Q () { s with mode := m } := modify_iff

/-! ### What a trace leaves alone -/

/-- From `s` to `s'` only counts, colors and flags of objects that take part, the candidate buffer,
the work list, the mode and the number of objects visited have changed. -/
structure Calm (s s' : State) : Prop where
  graph : s'.graph = s.graph
  others : ∀ x, ¬s.graph.part x → s'.object x = s.object x
  collected : s'.collected = s.collected
  garbage : s'.garbage = s.garbage
  later : s'.later = s.later
  rooms : s'.rooms = s.rooms
  collecting : s'.collecting = s.collecting
  threshold : s'.threshold = s.threshold
  sweepOnly : s'.sweepOnly = s.sweepOnly

/-- Nor has the candidate buffer. -/
structure Still (s s' : State) : Prop extends Calm s s' where
  buffered : s'.buffered = s.buffered
  roots : s'.roots = s.roots

theorem Calm.refl (s : State) : Calm s s := ⟨rfl, fun _ _ => rfl, rfl, rfl, rfl, rfl, rfl, rfl, rfl⟩

theorem Calm.trans {s₁ s₂ s₃ : State} (h : Calm s₁ s₂) (h' : Calm s₂ s₃) : Calm s₁ s₃ :=
  ⟨h'.graph.trans h.graph, fun x hx => (h'.others x (h.graph.symm ▸ hx)).trans (h.others x hx),
    h'.collected.trans h.collected, h'.garbage.trans h.garbage, h'.later.trans h.later, h'.rooms.trans h.rooms, h'.collecting.trans h.collecting,
    h'.threshold.trans h.threshold, h'.sweepOnly.trans h.sweepOnly⟩

theorem Calm.live {s' : State} (h : Calm s s') : s'.live = s.live := congrArg Graph.live h.graph

namespace Still

theorem refl (s : State) : Still s s := ⟨Calm.refl s, rfl, rfl⟩

theorem trans {s₁ s₂ s₃ : State} (h : Still s₁ s₂) (h' : Still s₂ s₃) : Still s₁ s₃ :=
  ⟨h.toCalm.trans h'.toCalm, h'.buffered.trans h.buffered, h'.roots.trans h.roots⟩

theorem painted (hp : s.graph.part b) : Still s (s.painted b c) :=
  ⟨⟨State.graph_painted, fun _ hx => State.object_update_of_part hp hx, rfl, rfl, rfl, rfl, rfl, rfl,
    rfl⟩, funext fun _ => State.buffered_painted, rfl⟩

theorem counted (hp : s.graph.part b) : Still s (s.counted b n) :=
  ⟨⟨State.graph_counted, fun _ hx => State.object_update_of_part hp hx, rfl, rfl, rfl, rfl, rfl, rfl,
    rfl⟩, funext fun _ => State.buffered_counted, rfl⟩

theorem pushed : Still s (s.pushed v) :=
  ⟨⟨rfl, fun _ _ => rfl, rfl, rfl, rfl, rfl, rfl, rfl, rfl⟩, rfl, rfl⟩

theorem walk {a : Items} : Still s { s with stack := a, visited := n, mode := m } :=
  ⟨⟨rfl, fun _ _ => rfl, rfl, rfl, rfl, rfl, rfl, rfl, rfl⟩, rfl, rfl⟩

end Still

/-! ### One visit -/

namespace State

/-- A visit in a mark: takes a count off `t`, and makes it gray and lists it unless it is gray. -/
def marked (s : State) (t : ℕ) : State :=
  if s.colorOf t = .gray then s.counted t (s.count t - 1)
  else ((s.counted t (s.count t - 1)).painted t .gray).pushed t

/-- A visit in a restore: gives `t` a count back, and makes it black and lists it unless it is
black. -/
def restored (s : State) (t : ℕ) : State :=
  if s.colorOf t = .black then s.counted t (s.count t + 1)
  else ((s.counted t (s.count t + 1)).painted t .black).pushed (t + RESTORE)

/-- The white object at `t` becomes garbage, to be walked. -/
def taken (s : State) (t : ℕ) : State :=
  { (s.painted t .black).pushed t with garbage := s.garbage.push t }

end State

section Visit

variable {blockOf : ℕ → ℕ} {build : Build} {G : Graph} {release : ℕ → Run Unit} {hold : Hold}
  {t : ℕ} {Q : Unit → State → Prop}

/-- The target of a hold that references an object that takes part. -/
theorem block_eq_some (h : G.block blockOf hold = some t) :
    ∃ a, hold = .reference a ∧ blockOf a = t ∧ t ≠ 0 ∧ G.part t := by
  obtain ⟨h₁, h₂⟩ := Option.filter_eq_some_iff.mp h
  cases hold with
  | room r => cases h₁
  | reference a =>
    simp only [Graph.target] at h₁
    split at h₁
    · cases h₁
    · next hne =>
      injection h₁ with h₁
      subst h₁
      exact ⟨a, rfl, rfl, hne, h₂⟩

theorem block_eq_none (h : G.block blockOf (.reference b) = none) (hne : blockOf b ≠ 0) :
    ¬G.part (blockOf b) := by
  intro hp
  have : G.block blockOf (.reference b) = some (blockOf b) := by
    simp [Graph.block, Graph.target, hne, Option.filter, hp]
  rw [h] at this
  cases this

/-- In a mark, scan or restore, a hold on no object that takes part is passed over. -/
theorem traceHold_none (hm : s.mode ≠ .idle) (hm' : s.mode ≠ .collect) (hG : s.graph = G)
    (h : G.block blockOf hold = none) (hQ : Q () s) :
    Ensures E (traceHold blockOf build release hold) Q s := by
  subst hG
  cases hold with
  | room r =>
    simp only [traceHold, holdRoom, bind_iff, get_iff, if_neg hm, if_neg hm', pure_iff, if_pos]
    exact hQ
  | reference a =>
    simp only [traceHold, visit, bind_iff, get_iff, if_neg hm]
    by_cases hz : blockOf a = 0
    · simp only [if_pos hz, pure_iff, if_pos]
      exact hQ
    · have hp := block_eq_none h hz
      simp only [if_neg hz, bind_iff, ensures_takesPart, if_neg hm', if_pos hp, pure_iff, if_pos]
      exact hQ

theorem traceHold_mark (hm : s.mode = .mark) (hG : s.graph = G) (h : G.block blockOf hold = some t)
    (hpos : 0 < s.count t) (hQ : Q () (s.marked t)) :
    Ensures E (traceHold blockOf build release hold) Q s := by
  subst hG
  obtain ⟨a, rfl, rfl, hne, hp⟩ := block_eq_some h
  simp only [traceHold, visit, bind_iff, get_iff, hm, reduceCtorEq, if_false, if_neg hne,
    ensures_takesPart, hp, not_true_eq_false, if_true, ensures_load]
  refine ensures_minus (fun _ => ?_) (fun h => absurd h (Nat.not_lt.mpr hpos))
    fun h => absurd h (Nat.not_lt.mpr hpos)
  unfold State.marked at hQ
  simp only [ensures_store, ensures_color, State.color_counted, ne_eq, ite_iff, bind_iff,
    ensures_paint, ensures_pushStack, pure_iff, forall_const,
    not_true_eq_false, false_implies, and_true]
  constructor
  · intro hc
    rwa [if_neg hc] at hQ
  · intro hc
    rwa [if_pos (not_not.mp hc)] at hQ

theorem traceHold_scan (hm : s.mode = .scan) (hG : s.graph = G) (h : G.block blockOf hold = some t)
    (hQ : Q () (s.pushed (t + SCAN))) :
    Ensures E (traceHold blockOf build release hold) Q s := by
  subst hG
  obtain ⟨a, rfl, rfl, hne, hp⟩ := block_eq_some h
  simp only [traceHold, visit, bind_iff, get_iff, hm, reduceCtorEq, if_false, if_neg hne,
    ensures_takesPart, hp, not_true_eq_false, if_true, ensures_pushStack,
    pure_iff]
  exact hQ

theorem traceHold_restore (hm : s.mode = .restore) (hG : s.graph = G)
    (h : G.block blockOf hold = some t) (hlt : s.count t + 1 < USIZE) (hQ : Q () (s.restored t)) :
    Ensures E (traceHold blockOf build release hold) Q s := by
  subst hG
  obtain ⟨a, rfl, rfl, hne, hp⟩ := block_eq_some h
  simp only [traceHold, visit, bind_iff, get_iff, hm, reduceCtorEq, if_false, if_neg hne,
    ensures_takesPart, hp, not_true_eq_false, ensures_load]
  refine ensures_plus (fun _ => ?_) (fun h => absurd hlt (Nat.not_lt.mpr h))
    fun h => absurd hlt (Nat.not_lt.mpr h)
  unfold State.restored at hQ
  simp only [ensures_store, ensures_color, State.color_counted, ne_eq, ite_iff, bind_iff,
    ensures_paint, ensures_pushStack, pure_iff, forall_const,
    not_true_eq_false, false_implies, and_true]
  constructor
  · intro hc
    rwa [if_neg hc] at hQ
  · intro hc
    rwa [if_pos (not_not.mp hc)] at hQ

theorem traceHold_collect (hm : s.mode = .collect) (hG : s.graph = G)
    (h : G.block blockOf hold = some t)
    (hQ : Q () (if s.colorOf t = .white then s.taken t else s)) :
    Ensures E (traceHold blockOf build release hold) Q s := by
  subst hG
  obtain ⟨a, rfl, rfl, hne, hp⟩ := block_eq_some h
  simp only [traceHold, visit, bind_iff, get_iff, hm, reduceCtorEq, if_false, if_neg hne,
    ensures_takesPart, hp, not_true_eq_false, if_true, ensures_color]
  simp only [ite_iff, bind_iff, ensures_paint, ensures_pushStack, pure_iff, pushGarbage, modify_iff,
    forall_const, not_true_eq_false, false_implies, and_true]
  constructor
  · intro hc
    rwa [if_pos hc] at hQ
  · intro hc
    rwa [if_neg hc] at hQ

/-- In the collect walk any other hold is passed over or listed, to be released later. -/
theorem traceHold_collect_none (hm : s.mode = .collect) (hG : s.graph = G)
    (h : G.block blockOf hold = none) (hQ : Q () s)
    (hlater : ∀ a, hold = .reference a → Q () { s with later := s.later.push a })
    (hroom : ∀ r, hold = .room r → Q () { s with rooms := s.rooms.push r }) :
    Ensures E (traceHold blockOf build release hold) Q s := by
  subst hG
  cases hold with
  | room r =>
    simp only [traceHold, holdRoom, pushRoom, bind_iff, get_iff, hm, reduceCtorEq, if_false,
      if_true, modify_iff, pure_iff]
    simpa only [hm] using hroom r rfl
  | reference a =>
    simp only [traceHold, visit, bind_iff, get_iff, hm, reduceCtorEq, if_false]
    by_cases hz : blockOf a = 0
    · simp only [if_pos hz, pure_iff, if_true]
      exact hQ
    · simp only [if_neg hz, bind_iff, ensures_takesPart, if_pos (block_eq_none h hz), if_true,
        pushLater, modify_iff, pure_iff]
      exact hlater a rfl

/-- **Through a trace**: what each hold's release keeps, as the holds left get fewer, holds at the
end. -/
theorem traceHolds_spec {I : List Hold → State → Prop} {Q : Unit → State → Prop}
    (hstep : ∀ hold holds s, I (hold :: holds) s →
      Ensures E (traceHold blockOf build release hold) (fun _ s' => I holds s') s)
    (hend : ∀ s, I [] s → Q () s) :
    ∀ (holds : List Hold) {s : State}, I holds s →
      Ensures E (traceHolds blockOf build release holds) Q s
  | [], s, h => pure_iff.mpr (hend s h)
  | hold :: holds, s, h => by
    rw [traceHolds, bind_iff]
    exact (hstep hold holds s h).mono fun _ s' h' => traceHolds_spec hstep hend holds h'

theorem cycleTrace_spec {I : List Hold → State → Prop} {Q : Unit → State → Prop}
    (hstep : ∀ hold holds s, I (hold :: holds) s →
      Ensures E (traceHold blockOf build release hold) (fun _ s' => I holds s') s)
    (hend : ∀ s, I [] s → Q () s) (h : I (s.graph.glue b) s) :
    Ensures E (cycleTrace blockOf build release b) Q s := by
  rw [cycleTrace, bind_iff, get_iff]
  exact traceHolds_spec hstep hend _ h

end Visit

end Cycle

end HdLang
