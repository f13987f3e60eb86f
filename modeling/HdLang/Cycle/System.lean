import HdLang.Cycle.Graph
import HdLang.Lib.Transition

/-!
# The collector and its callers

The candidate buffer is written by `suspect` and `keep`, which the program's releases call, and by
collections. `Call` is what the program does: it writes objects, counts and glue, and calls. `dying`
are the blocks whose last release is under way. A release links their count words into its work list
and ends with `free`, which asks `keep`.

`Step` is a collection of `cycle.hd` cut where its callbacks run, so that the program's calls
during the releases of `later` are steps of their own: the sweep, the walks that find the garbage,
the frees, the releases, the rooms and the end. `collect_run` puts the cuts together again.
-/

namespace HdLang

namespace Cycle

/-! ### Candidates -/

/-- The fewest candidates without counts that make a sweep due. -/
def SWEEP : ℕ := 64

/-- Makes the object at `block`, whose count a release just left above zero, a candidate. -/
def suspect (block : ℕ) : Run Unit := do
  let s ← get
  if (s.object block).buffered then pure ()
  else do
    -- a full buffer first closes the gaps a collection left
    if s.roots.capacity ≠ 0 ∧ s.roots.length = s.roots.capacity ∧
        s.candidates < s.roots.length then compact
    modify fun s =>
      { s with roots := s.roots.push block, candidates := s.candidates + 1 }
    change block fun o => { o with buffered := true }

section Due

variable (build : Build)

/-- `due` with `SWEEP` candidates or more. -/
def collectionDue : Run Bool := do
  let s ← get
  if s.collecting then pure false
  else do
    let alive ← minus build s.candidates s.dead
    if alive ≥ s.threshold then do
      modify fun s => { s with sweepOnly := false }
      pure true
    else do
      modify fun s => { s with sweepOnly := s.dead ≥ SWEEP ∧ s.dead * 2 ≥ s.candidates }
      pure (decide (s.dead ≥ SWEEP ∧ s.dead * 2 ≥ s.candidates))

/-- Whether a collection is due. -/
def due : Run Bool := do
  let s ← get
  if s.candidates ≥ SWEEP then collectionDue build else pure false

end Due

/-! ### The program -/

/-- What the program does to the heap between its calls: it allocates, writes what objects hold,
takes and releases counts, and starts last releases. It writes neither `BUFFERED` nor the
collector's bindings, and a count goes only in a last release. -/
structure Mutates (s : State) (dying : Finset ℕ) (s' : State) (dying' : Finset ℕ) : Prop where
  kept : s' = { s with live := s'.live, object := s'.object }
  live : s.live ⊆ s'.live
  nonzero : 0 ∉ s'.live
  /-- `rt:new` writes the descriptor of a new object whole, and `alloc` gives no block in use. -/
  fresh : ∀ b ∈ s'.live, b ∉ s.live → s'.buffered b = false ∧ b ∉ s.rooms.items
  buffered : ∀ b ∈ s.live, s'.buffered b = s.buffered b
  releases : dying ⊆ dying'
  last : ∀ b ∈ dying', b ∉ dying → s.count b ≠ 0
  counted : ∀ b ∈ s.live, b ∉ dying' → (s'.count b = 0 ↔ s.count b = 0)

/-- What the program does, in `s` with the blocks `dying`. -/
inductive Call (s : State) (dying : Finset ℕ) : State → Finset ℕ → Prop
  | mutate {s' : State} {dying' : Finset ℕ} (h : Mutates s dying s' dying') : Call s dying s' dying'
  /-- A release left the count of `b` above zero. -/
  | suspect {s' : State} {b : ℕ} (hlive : b ∈ s.live) (hcount : s.count b ≠ 0) (hb : b ∉ dying)
    (h : (suspect b).run s = .ok ((), s')) : Call s dying s' dying
  /-- The end of the last release of `b`, or of its only holder's. -/
  | free {s' : State} {b : ℕ} (hlive : b ∈ s.live) (hb : b ∈ dying ∨ s.count b ≠ 0)
    (h : (free b).run s = .ok ((), s')) : Call s dying s' (dying.erase b)
  | due {s' : State} {build : Build} {r : Bool} (h : (due build).run s = .ok (r, s')) :
    Call s dying s' dying
  /-- A `collect` during a collection does nothing. -/
  | collect (h : s.collecting = true) : Call s dying s dying

/-- What the program does, call after call. -/
inductive Calls : State → Finset ℕ → State → Finset ℕ → Prop
  | refl (s : State) (dying : Finset ℕ) : Calls s dying s dying
  | tail {s₁ s₂ s₃ : State} {d₁ d₂ d₃ : Finset ℕ} (h : Calls s₁ d₁ s₂ d₂) (h' : Call s₂ d₂ s₃ d₃) :
    Calls s₁ d₁ s₃ d₃

/-! ### A collection, cut -/

/-- The walks of a collection, which find its garbage. -/
def walk (trace : ℕ → Run Unit) (fuel : ℕ) : Run Unit := do
  let n := (← get).roots.length
  eachRoot (fun i s => do
    if (← color s) ≠ .gray then mark trace fuel s else dropRoot i s) n 0
  eachRoot (fun _ s => scan trace fuel s) n 0
  eachRoot (fun i s => do
    dropRoot i s
    if (← color s) = .white then do
      paint s .black
      pushGarbage s
      pushStack s
      drain trace .collect fuel) n 0

/-- The end of a collection that freed `freed` objects. -/
def finish (build : Build) (freed : ℕ) : Run Unit := do
  modify fun s => { s with rooms := s.rooms.clear, garbage := s.garbage.clear }
  compact
  let s ← get
  if freed * 2 ≥ s.visited then
    modify fun s =>
      { s with threshold := if s.threshold / 2 > FIRST then s.threshold / 2 else FIRST }
  else do
    let doubled ← times build s.threshold 2
    modify fun s => { s with threshold := doubled }
  modify fun s => { s with collecting := false }

theorem collect_eq {build : Build} {trace release free : ℕ → Run Unit} {fuel : ℕ} :
    collect build trace release free fuel = (do
      if (← get).collecting then pure ()
      else do
        modify fun s => { s with collecting := true, visited := 0 }
        sweep free
        if (← get).sweepOnly then
          modify fun s => { s with sweepOnly := false, collecting := false }
        else do
          walk trace fuel
          let freed := (← get).garbage.length
          freeGarbage free freed 0
          eachItem State.later release fuel 0
          modify fun s => { s with later := s.later.clear }
          eachItem State.rooms freeBlock fuel 0
          finish build freed) := by
  simp only [collect, walk, finish, bind_assoc]

/-- Where a collection is. -/
inductive Phase
  /-- No collection runs. -/
  | program
  /-- The sweep is done. -/
  | walking
  /-- The `i`th of the `freed` objects of `garbage` is next to be freed. -/
  | freeing (i freed : ℕ)
  /-- The `i`th item of `later` is next to be released. -/
  | releasing (i freed : ℕ)
  /-- It is being released. -/
  | inRelease (i freed : ℕ)
  /-- The `i`th of the rooms is next to be freed. -/
  | clearing (i freed : ℕ)
  deriving DecidableEq, Repr

/-- Whether the program runs: between collections and in their releases. -/
def Phase.runs : Phase → Bool
  | program => true
  | inRelease _ _ => true
  | _ => false

structure Config where
  state : State
  dying : Finset ℕ
  phase : Phase

/-- What a step does. -/
inductive Event
  | call
  | sweep
  | walk
  | free
  | room
  /-- A turn of a loop, or the end of one. -/
  | turn
  deriving DecidableEq, Repr

/-- The candidate at `b` has lost its last count. -/
def State.spent (s : State) (b : ℕ) : Prop := s.buffered b = true ∧ s.count b = 0

/-- What the program promises of the heap when it asks for a collection: blocks are aligned, the
references of objects with counts are to such objects, and rooms are no objects. -/
structure Heap (blockOf : ℕ → ℕ) (s : State) : Prop where
  aligned : ∀ b ∈ s.live, b % 16 = 0
  closed : ∀ y ∈ s.live, ¬s.spent y → ∀ x ∈ s.graph.succ blockOf y, x ∈ s.live ∧ ¬s.spent x
  rooms : ∀ y ∈ s.live, ¬s.spent y → ∀ b, .room b ∈ s.graph.glue y → b ∉ s.live

section Step

variable (blockOf : ℕ → ℕ) (build : Build) (fuel : ℕ)

/-- One step of a program and its collections. A collection starts, and ends, with no last release
under way. -/
inductive Step : Config → Event → Config → Prop
  | call {s s' : State} {d d' : Finset ℕ} {p : Phase} (hp : p.runs = true) (h : Call s d s' d') :
    Step ⟨s, d, p⟩ .call ⟨s', d', p⟩
  | sweepOnly {s s' : State} (hidle : s.collecting = false) (hheap : Heap blockOf s)
    (h : (sweep cycleFree).run { s with collecting := true, visited := 0 } = .ok ((), s'))
    (honly : s'.sweepOnly = true) :
    Step ⟨s, ∅, .program⟩ .sweep ⟨{ s' with sweepOnly := false, collecting := false }, ∅, .program⟩
  | sweep {s s' : State} (hidle : s.collecting = false) (hheap : Heap blockOf s)
    (h : (sweep cycleFree).run { s with collecting := true, visited := 0 } = .ok ((), s'))
    (honly : s'.sweepOnly = false) : Step ⟨s, ∅, .program⟩ .sweep ⟨s', ∅, .walking⟩
  | walk {s s' : State} {release : ℕ → Run Unit}
    (h : (walk (cycleTrace blockOf build release) fuel).run s = .ok ((), s')) :
    Step ⟨s, ∅, .walking⟩ .walk ⟨s', ∅, .freeing 0 s'.garbage.length⟩
  | free {s s' : State} {i freed : ℕ} (hi : i < freed)
    (h : (cycleFree (s.garbage.item i)).run s = .ok ((), s')) :
    Step ⟨s, ∅, .freeing i freed⟩ .free ⟨s', ∅, .freeing (i + 1) freed⟩
  | freed {s : State} {freed : ℕ} :
    Step ⟨s, ∅, .freeing freed freed⟩ .turn ⟨s, ∅, .releasing 0 freed⟩
  | release {s : State} {i freed : ℕ} (hi : i < s.later.length) :
    Step ⟨s, ∅, .releasing i freed⟩ .turn ⟨s, ∅, .inRelease i freed⟩
  | resume {s : State} {i freed : ℕ} :
    Step ⟨s, ∅, .inRelease i freed⟩ .turn ⟨s, ∅, .releasing (i + 1) freed⟩
  | released {s : State} {i freed : ℕ} (hi : ¬i < s.later.length) :
    Step ⟨s, ∅, .releasing i freed⟩ .turn ⟨{ s with later := s.later.clear }, ∅, .clearing 0 freed⟩
  | room {s s' : State} {i freed : ℕ} (hi : i < s.rooms.length)
    (h : (freeBlock (s.rooms.item i)).run s = .ok ((), s')) :
    Step ⟨s, ∅, .clearing i freed⟩ .room ⟨s', ∅, .clearing (i + 1) freed⟩
  | finish {s s' : State} {i freed : ℕ} (hi : ¬i < s.rooms.length)
    (h : (finish build freed).run s = .ok ((), s')) :
    Step ⟨s, ∅, .clearing i freed⟩ .turn ⟨s', ∅, .program⟩

/-- `t` is reached from `s`. -/
abbrev Reaches : Config → Config → Prop := Transition.Run (Step blockOf build fuel) fun _ _ => True

end Step

/-! ### A whole collection -/

section Whole

variable {blockOf : ℕ → ℕ} {build : Build} {fuel : ℕ}

theorem exists_of_bind {α β : Type} {x : Run α} {f : α → Run β} {s s' : State} {r : β}
    (h : (x >>= f).run s = .ok (r, s')) :
    ∃ a t, x.run s = .ok (a, t) ∧ (f a).run t = .ok (r, s') := by
  rw [StateT.run_bind] at h
  cases hx : x.run s with
  | error e =>
    rw [hx] at h
    cases h
  | ok p =>
    rw [hx] at h
    exact ⟨p.1, p.2, rfl, h⟩

theorem Reaches.step {c c' c'' : Config} {e : Event} (h : Reaches blockOf build fuel c c')
    (h' : Step blockOf build fuel c' e c'') : Reaches blockOf build fuel c c'' := h.tail trivial h'

theorem Reaches.calls {s s' : State} {d d' : Finset ℕ} {p : Phase} (hp : p.runs = true)
    (h : Calls s d s' d') : Reaches blockOf build fuel ⟨s, d, p⟩ ⟨s', d', p⟩ := by
  induction h with
  | refl => exact .refl _
  | tail _ h' ih => exact ih.step (.call hp h')

theorem freeGarbage_run (freed : ℕ) : ∀ (left : ℕ) {i : ℕ} {s s' : State}, i + left = freed →
    (freeGarbage cycleFree left i).run s = .ok ((), s') →
    Reaches blockOf build fuel ⟨s, ∅, .freeing i freed⟩ ⟨s', ∅, .freeing freed freed⟩
  | 0, i, s, s', hn, h => by
    obtain rfl : i = freed := hn
    obtain rfl : s = s' := by
      cases h
      rfl
    exact .refl _
  | left + 1, i, s, s', hn, h => by
    obtain ⟨s₁, s₂, hget, h⟩ := exists_of_bind h
    cases hget
    obtain ⟨_, t, hfree, hrest⟩ := exists_of_bind h
    have hstep : Step blockOf build fuel ⟨s, ∅, .freeing i freed⟩ .free
        ⟨t, ∅, .freeing (i + 1) freed⟩ := .free (by omega) hfree
    exact (Transition.Run.tail (.refl _) trivial hstep).trans
      (freeGarbage_run freed left (by omega) hrest)

/-- A loop over an array is a run, when each of its turns is. -/
theorem eachItem_run {array : State → Items} {body : ℕ → Run Unit} (at_ : ℕ → Phase)
    (hturn : ∀ {i : ℕ} {s t : State}, i < (array s).length →
      (body ((array s).item i)).run s = .ok ((), t) →
      Reaches blockOf build fuel ⟨s, ∅, at_ i⟩ ⟨t, ∅, at_ (i + 1)⟩) :
    ∀ (turns : ℕ) {i : ℕ} {s s' : State}, (eachItem array body turns i).run s = .ok ((), s') →
      ∃ j, ¬j < (array s').length ∧ Reaches blockOf build fuel ⟨s, ∅, at_ i⟩ ⟨s', ∅, at_ j⟩
  | 0, i, s, s', h => by cases h
  | turns + 1, i, s, s', h => by
    obtain ⟨s₁, s₂, hget, h⟩ := exists_of_bind h
    cases hget
    by_cases hi : i < (array s).length
    · rw [if_pos hi] at h
      obtain ⟨_, t, hrun, hrest⟩ := exists_of_bind h
      obtain ⟨j, hj, hreach⟩ := eachItem_run at_ hturn turns hrest
      exact ⟨j, hj, (hturn hi hrun).trans hreach⟩
    · rw [if_neg hi] at h
      cases h
      exact ⟨i, hi, .refl _⟩

end Whole

end Cycle

end HdLang
