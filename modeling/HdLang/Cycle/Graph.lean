import HdLang.Cycle.Model
import HdLang.Lib.Graphs

/-!
# The object graph

What a collection walks is a `Graph`: the live blocks, which of them take part and what each holds.
Tracing changes counts, colors and the collector's arrays, never the graph. `Sound` is what holds of
the heap between collections: counts are exact, colors are black, and the candidate buffer holds
the buffered objects.
-/

namespace HdLang

namespace Cycle

open RefGraph

/-! ### Graphs -/

/-- The part of a state that tracing does not change. -/
structure Graph where
  live : Finset ℕ
  part : ℕ → Bool
  glue : ℕ → List Hold

namespace Graph

variable (blockOf : ℕ → ℕ) (G : Graph)

/-- The blocks of objects that take part. -/
def parts : Finset ℕ := G.live.filter fun b => G.part b

/-- The live blocks of objects that do not take part. -/
def others : Finset ℕ := G.live.filter fun b => ¬G.part b

theorem mem_parts {b : ℕ} : b ∈ G.parts ↔ b ∈ G.live ∧ G.part b := Finset.mem_filter

theorem mem_others {b : ℕ} : b ∈ G.others ↔ b ∈ G.live ∧ ¬G.part b := Finset.mem_filter

/-- The block that a reference refers to, none for static data. -/
def target : Hold → Option ℕ
  | .reference a => if blockOf a = 0 then none else some (blockOf a)
  | .room _ => none

/-- The blocks that the object at `y` references, one entry a reference. -/
def targets (y : ℕ) : List ℕ := (G.glue y).filterMap (target blockOf)

/-- The block of an object that takes part, that a reference refers to. -/
def block (hold : Hold) : Option ℕ := (target blockOf hold).filter G.part

/-- The objects taking part that `holds` references. -/
def blocks (holds : List Hold) : List ℕ := holds.filterMap (G.block blockOf)

/-- The objects taking part that the object at `y` references. -/
def succ (y : ℕ) : List ℕ := G.blocks blockOf (G.glue y)

/-- The references to `x` from outside the heap and from objects that do not take part. -/
def outer (outside : ℕ → ℕ) (x : ℕ) : ℕ := outside x + held (G.targets blockOf) G.others x

variable {blockOf G} {x y : ℕ}

theorem mem_succ : x ∈ G.succ blockOf y ↔ x ∈ G.targets blockOf y ∧ G.part x := by
  simp only [succ, blocks, block, targets, List.mem_filterMap, Option.filter_eq_some_iff]
  constructor
  · rintro ⟨hold, hmem, ht, hp⟩
    exact ⟨⟨hold, hmem, ht⟩, hp⟩
  · rintro ⟨⟨hold, hmem, ht⟩, hp⟩
    exact ⟨hold, hmem, ht, hp⟩

@[simp] theorem blocks_nil : G.blocks blockOf [] = [] := rfl

variable {hold : Hold} {holds : List Hold}

theorem blocks_cons_some {t : ℕ} (h : G.block blockOf hold = some t) :
    G.blocks blockOf (hold :: holds) = t :: G.blocks blockOf holds :=
  List.filterMap_cons_some h

theorem blocks_cons_none (h : G.block blockOf hold = none) :
    G.blocks blockOf (hold :: holds) = G.blocks blockOf holds :=
  List.filterMap_cons_none h

end Graph

/-! ### States -/

namespace State

variable (s : State)

def graph : Graph := ⟨s.live, fun b => (s.object b).takesPart, fun b => (s.object b).glue⟩

def count (b : ℕ) : ℕ := (s.object b).count

def colorOf (b : ℕ) : Color := (s.object b).color

def buffered (b : ℕ) : Bool := (s.object b).buffered

/-- The state with the object at `b` painted `c`. -/
def painted (b : ℕ) (c : Color) : State := s.update b fun o => { o with color := c }

/-- The state with `n` the count of the object at `b`. -/
def counted (b n : ℕ) : State := s.update b fun o => { o with count := n }

/-- The state with the object at `b` not buffered. -/
def unbuffered (b : ℕ) : State := s.update b fun o => { o with buffered := false }

/-- The state with `v` pushed on the work list. -/
def pushed (v : ℕ) : State := { s with stack := s.stack.push v }

variable {s} {b x n v : ℕ} {c : Color} {f : Object → Object}

theorem object_update :
    (s.update b f).object x = if x = b then f (s.object b) else s.object x := by
  simp only [update, Function.update_apply]

/-- A change of an object that takes part is not one of an object that does not. -/
theorem object_update_of_part (hb : s.graph.part b) (hx : ¬s.graph.part x) :
    (s.update b f).object x = s.object x := by
  rw [object_update, if_neg]
  rintro rfl
  exact hx hb

theorem graph_update (hp : (f (s.object b)).takesPart = (s.object b).takesPart)
    (hg : (f (s.object b)).glue = (s.object b).glue) : (s.update b f).graph = s.graph := by
  have hpart : ∀ x, ((s.update b f).object x).takesPart = (s.object x).takesPart := by
    intro x
    rw [object_update]
    split
    · next h => rw [h, hp]
    · rfl
  have hglue : ∀ x, ((s.update b f).object x).glue = (s.object x).glue := by
    intro x
    rw [object_update]
    split
    · next h => rw [h, hg]
    · rfl
  simp only [graph, hpart, hglue]
  rfl

@[simp] theorem graph_painted : (s.painted b c).graph = s.graph := graph_update rfl rfl

@[simp] theorem graph_counted : (s.counted b n).graph = s.graph := graph_update rfl rfl

@[simp] theorem graph_unbuffered : (s.unbuffered b).graph = s.graph := graph_update rfl rfl

@[simp] theorem graph_pushed : (s.pushed v).graph = s.graph := rfl

@[simp] theorem count_painted : (s.painted b c).count x = s.count x := by
  simp only [count, painted, object_update]
  split <;> simp_all

@[simp] theorem count_counted : (s.counted b n).count x = if x = b then n else s.count x := by
  simp only [count, counted, object_update]
  split <;> rfl

@[simp] theorem count_unbuffered : (s.unbuffered b).count x = s.count x := by
  simp only [count, unbuffered, object_update]
  split <;> simp_all

@[simp] theorem count_pushed : (s.pushed v).count x = s.count x := rfl

@[simp] theorem color_painted : (s.painted b c).colorOf x = if x = b then c else s.colorOf x := by
  simp only [colorOf, painted, object_update]
  split <;> rfl

@[simp] theorem color_counted : (s.counted b n).colorOf x = s.colorOf x := by
  simp only [colorOf, counted, object_update]
  split <;> simp_all

@[simp] theorem color_unbuffered : (s.unbuffered b).colorOf x = s.colorOf x := by
  simp only [colorOf, unbuffered, object_update]
  split <;> simp_all

@[simp] theorem color_pushed : (s.pushed v).colorOf x = s.colorOf x := rfl

@[simp] theorem buffered_painted : (s.painted b c).buffered x = s.buffered x := by
  simp only [buffered, painted, object_update]
  split <;> simp_all

@[simp] theorem buffered_counted : (s.counted b n).buffered x = s.buffered x := by
  simp only [buffered, counted, object_update]
  split <;> simp_all

@[simp] theorem buffered_unbuffered :
    (s.unbuffered b).buffered x = if x = b then false else s.buffered x := by
  simp only [buffered, unbuffered, object_update]
  split <;> rfl

@[simp] theorem stack_pushed : (s.pushed v).stack.items = s.stack.items ++ [v] := rfl

@[simp] theorem stack_painted : (s.painted b c).stack = s.stack := rfl

@[simp] theorem stack_counted : (s.counted b n).stack = s.stack := rfl

end State

/-! ### Between collections -/

section Sound

variable (blockOf outside : ℕ → ℕ)

/-- **Exact counts**: the count of each object that takes part is the number of references to it. -/
def Exact (s : State) : Prop := ∀ x ∈ s.graph.parts,
  s.count x = held (s.graph.succ blockOf) s.graph.parts x + s.graph.outer blockOf outside x

/-- What holds of the heap between collections. -/
structure Sound (s : State) : Prop where
  aligned : ∀ b ∈ s.live, b % 16 = 0 ∧ b ≠ 0
  /-- A reference to an object that takes part is to a live one. -/
  closed : ∀ y ∈ s.live, ∀ x ∈ s.graph.succ blockOf y, x ∈ s.live
  /-- Rooms are no objects. -/
  rooms : ∀ y ∈ s.live, ∀ b, .room b ∈ s.graph.glue y → b ∉ s.live
  exact : Exact blockOf outside s
  word : ∀ x ∈ s.graph.parts, s.count x < USIZE
  black : ∀ b ∈ s.live, s.colorOf b = .black
  roots_nodup : (s.roots.items.filter (· ≠ 0)).Nodup
  roots_live : ∀ b ∈ s.roots.items, b ≠ 0 → b ∈ s.live ∧ s.buffered b
  buffered : ∀ b ∈ s.live, s.buffered b → b ∈ s.roots.items
  /-- A candidate whose last count went has released what it held. -/
  spent : ∀ b ∈ s.roots.items, b ≠ 0 → s.count b = 0 →
    s.graph.glue b = [] ∧ outside b = 0 ∧ ∀ y ∈ s.live, b ∉ s.graph.targets blockOf y

/-- The collector is not at work. -/
structure Resting (s : State) : Prop where
  mode : s.mode = .idle
  stack : s.stack.items = []
  garbage : s.garbage.items = []
  later : s.later.items = []
  rooms : s.rooms.items = []

/-- **Held from outside**: reachable from a reference outside the heap, from an object that does not
take part, or from a running frame (which does not). -/
inductive Held (s : State) : ℕ → Prop
  | outside {x : ℕ} (h : 0 < outside x) : Held s x
  | other {y x : ℕ} (hy : y ∈ s.graph.others) (h : x ∈ s.graph.targets blockOf y) : Held s x
  | step {y x : ℕ} (hy : Held s y) (hlive : y ∈ s.live) (h : x ∈ s.graph.targets blockOf y) :
    Held s x

end Sound

end Cycle

end HdLang
