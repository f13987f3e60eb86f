import HdLang.Cycle.Walks

/-!
# The candidate buffer, always

The buffer is right in every state that a program and its collections reach, between any two steps
of a collection and at every call that the program makes while one releases `later`. `Inv` is what
holds in each phase; `Inv.step` is one case a step.
-/

namespace HdLang

open Ensures List Finset

namespace Cycle

/-! ### The phases -/

/-- A collection that has found its garbage. -/
structure Emptying (s : State) : Prop where
  mode : s.mode = .idle
  stack : s.stack.items = []
  /-- What a white holder's buffers had for a room is not given out before it is freed. -/
  rooms : ∀ b ∈ s.rooms.items, b ∉ s.live

/-- What holds of the state in each phase. -/
def Phase.Holds (blockOf : ℕ → ℕ) (s : State) : Phase → Prop
  | program => Resting s
  | walking => Resting s ∧ s.graph.Closed blockOf ∧ s.dead = 0 ∧
      ∀ b ∈ s.roots.items, b ≠ 0 → s.count b ≠ 0
  | freeing _ freed => Emptying s ∧ freed = s.garbage.length ∧
      ∀ b ∈ s.garbage.items, s.buffered b = false
  | releasing _ _ => Emptying s
  | inRelease _ _ => Emptying s
  | clearing _ _ => Emptying s ∧ s.later.items = []

/-- The buffer is right and the collector where its phase says. -/
structure Inv (blockOf : ℕ → ℕ) (c : Config) : Prop where
  buffer : Buffer c.state c.dying
  phase : c.phase.Holds blockOf c.state

/-- From `c` to `c'` no candidate is freed but by a sweep, which finds no count on it. -/
def Spares (c : Config) (e : Event) (c' : Config) : Prop := ∀ b ∈ c.state.live,
  c.state.buffered b = true → b ∈ c'.state.live ∨ e = .sweep ∧ c.state.count b = 0

section Steps

variable {blockOf : ℕ → ℕ} {build : Build} {release : ℕ → Run Unit} {fuel : ℕ} {s s' : State}
  {d d' : Finset ℕ} {p : Phase} {i freed : ℕ}

theorem Resting.of_aside (h : Resting s) (haside : Aside s s') : Resting s' :=
  ⟨haside.mode.trans h.mode, (congrArg Items.items haside.stack).trans h.stack,
    (congrArg Items.items haside.garbage).trans h.garbage,
    (congrArg Items.items haside.later).trans h.later,
    (congrArg Items.items haside.rooms).trans h.rooms⟩

theorem Emptying.of_careful (h : Emptying s) (hc : Careful s s') : Emptying s' where
  mode := hc.mode.trans h.mode
  stack := (congrArg Items.items hc.stack).trans h.stack
  rooms := by
    rw [hc.rooms]
    intro b hb hlive
    exact (hc.given b hlive).elim (h.rooms b hb) fun hnot => hnot hb

/-- The program's calls keep what holds while it runs. -/
theorem Phase.Holds.call (hp : p.runs = true) (h : p.Holds blockOf s) (hc : Careful s s') :
    p.Holds blockOf s' := by
  cases p with
  | program => exact Resting.of_aside h hc.toAside
  | inRelease => exact Emptying.of_careful h hc
  | _ => cases hp

/-- A sweep leaves references to live objects only. -/
theorem Heap.swept (hheap : Heap blockOf s) (hL : Listed s)
    (h : Swept s (s.roots.items.filter s.lost) s') : s'.graph.Closed blockOf := by
  have hgone : ∀ {x}, x ∈ s.live → (x ∈ s.roots.items.filter s.lost ↔ s.spent x) := by
    intro x hx
    have hne : x ≠ 0 := fun h₀ => hL.nonzero (h₀ ▸ hx)
    rw [mem_filter, ← hL.buffered x hx, State.spent]
    simp [State.lost, hne]
  have hlive : ∀ {x}, x ∈ s'.graph.live ↔ x ∈ s.live ∧ ¬s.spent x := by
    intro x
    rw [h.graph, Graph.without, mem_sdiff, mem_toFinset]
    exact and_congr_right fun hx => not_congr (hgone hx)
  have hglue : ∀ y, s'.graph.glue y = s.graph.glue y := fun y => by rw [h.graph]; rfl
  have hsucc : ∀ y, s'.graph.succ blockOf y = s.graph.succ blockOf y := fun y => by
    rw [h.graph]
    rfl
  constructor
  · exact fun b hb => hheap.aligned b (hlive.mp hb).1
  · intro y hy x hx
    rw [hsucc] at hx
    exact hlive.mpr (hheap.closed y (hlive.mp hy).1 (hlive.mp hy).2 x hx)
  · intro y hy b hb hb'
    rw [hglue] at hb
    exact hheap.rooms y (hlive.mp hy).1 (hlive.mp hy).2 b hb (hlive.mp hb').1

theorem Inv.sweep (h : Inv blockOf ⟨s, ∅, .program⟩) (hheap : Heap blockOf s)
    (hrun : (sweep cycleFree).run { s with collecting := true, visited := 0 } = .ok ((), s')) :
    Inv blockOf ⟨s', ∅, .walking⟩ ∧
      Spares ⟨s, ∅, .program⟩ .sweep ⟨s', ∅, .walking⟩ := by
  have hL : Listed { s with collecting := true, visited := 0 } :=
    h.buffer.toListed.of_eq rfl rfl rfl rfl
  obtain ⟨hS, hL', hdead, -, hcount⟩ := (hL.sweep (E := fun _ => True)).of_run hrun
  have hrest : Resting s := h.phase
  have hheap' : Heap blockOf { s with collecting := true, visited := 0 } :=
    ⟨hheap.aligned, hheap.closed, hheap.rooms⟩
  refine ⟨⟨hL'.toBuffer hdead hcount, ?_, hheap'.swept hL hS, hdead, hcount⟩, ?_⟩
  · exact ⟨hS.mode.trans hrest.mode, (congrArg Items.items hS.stack).trans hrest.stack,
      (congrArg Items.items hS.garbage).trans hrest.garbage,
      (congrArg Items.items hS.later).trans hrest.later,
      (congrArg Items.items hS.rooms).trans hrest.rooms⟩
  · intro b hb hbuf
    by_cases hz : s.count b = 0
    · exact Or.inr ⟨rfl, hz⟩
    · refine Or.inl ?_
      show b ∈ s'.live
      rw [hS.live, mem_sdiff, mem_toFinset, mem_filter]
      refine ⟨hb, fun hlost => hz ?_⟩
      exact (of_decide_eq_true hlost.2).2

theorem Inv.walk (h : Inv blockOf ⟨s, ∅, .walking⟩)
    (hrun : (walk (cycleTrace blockOf build release) fuel).run s = .ok ((), s')) :
    Inv blockOf ⟨s', ∅, .freeing 0 s'.garbage.length⟩ ∧ s'.live = s.live := by
  obtain ⟨hrest, hC, hdead, hcount⟩ : Resting s ∧ s.graph.Closed blockOf ∧ s.dead = 0 ∧
    ∀ b ∈ s.roots.items, b ≠ 0 → s.count b ≠ 0 := h.phase
  have hstart : Between s.graph s s := ⟨rfl, fun _ _ => rfl, h.buffer.toListed, fun _ hr _ => hr,
    rfl, rfl, rfl, by simp [hrest.garbage], by simp [hrest.rooms], hrest.stack, hrest.mode⟩
  obtain ⟨hB, hout⟩ := (walk_spec hC hstart).of_run hrun
  have hlive : s'.live = s.live := congrArg Graph.live hB.graph
  have hcount' : ∀ b ∈ s'.roots.items, b ≠ 0 → s'.count b ≠ 0 := by
    intro b hb hne
    rw [show s'.count b = s.count b from congrArg Object.count (hB.others b (hout b hb hne))]
    exact hcount b (hB.sub b hb hne) hne
  have hbuffer : Buffer s' ∅ := hB.listed.toBuffer (hB.dead.trans hdead) hcount'
  refine ⟨⟨hbuffer, ⟨hB.mode, hB.stack, ?_⟩, rfl, ?_⟩, hlive⟩
  · intro b hb hb'
    rw [hlive] at hb'
    exact hB.rooms b hb hb'
  · intro b hb
    obtain ⟨hbl, hp⟩ := (Graph.mem_parts _).mp (hB.garbage b hb)
    have hbl' : b ∈ s'.live := hlive.symm ▸ hbl
    by_contra hbuf
    have hbuf : s'.buffered b = true := by simpa using hbuf
    have hne : b ≠ 0 := fun h₀ => hB.listed.nonzero (h₀ ▸ hbl')
    exact hout b ((hB.listed.buffered b hbl').mp hbuf) hne hp

theorem item_mem {a : Items} (hi : i < a.length) : a.item i ∈ a.items := by
  have hi : i < a.items.length := hi
  rw [Items.item, getD_of_lt hi]
  exact getElem_mem hi

theorem Inv.free (h : Inv blockOf ⟨s, ∅, .freeing i freed⟩) (hi : i < freed)
    (hrun : (cycleFree (s.garbage.item i)).run s = .ok ((), s')) :
    Inv blockOf ⟨s', ∅, .freeing (i + 1) freed⟩ ∧
      ∀ b ∈ s.live, s.buffered b = true → b ∈ s'.live := by
  obtain ⟨hE, hfreed, hgarbage⟩ := h.phase
  have hb := hgarbage _ (item_mem (hfreed ▸ hi))
  have hs' : s' = { s with
      live := s.live.erase (s.garbage.item i), collected := s.collected ++ [s.garbage.item i] } :=
    (ensures_cycleFree (E := fun _ => True) (Q := fun _ t => t = _) hb rfl).of_run hrun
  subst hs'
  refine ⟨⟨h.buffer.erase hb, ⟨hE.mode, hE.stack, ?_⟩, hfreed, hgarbage⟩, fun b hbl hbuf => ?_⟩
  · exact fun r hr hlive => hE.rooms r hr (mem_of_mem_erase hlive)
  · refine mem_erase.mpr ⟨?_, hbl⟩
    rintro rfl
    rw [hb] at hbuf
    cases hbuf

theorem Inv.room (h : Inv blockOf ⟨s, ∅, .clearing i freed⟩) (hi : i < s.rooms.length)
    (hrun : (freeBlock (s.rooms.item i)).run s = .ok ((), s')) :
    Inv blockOf ⟨s', ∅, .clearing (i + 1) freed⟩ ∧ s'.live = s.live := by
  obtain ⟨hE, hlater⟩ := h.phase
  have hs' : s' = { s with live := s.live.erase (s.rooms.item i) } := by
    cases hrun
    rfl
  rw [erase_eq_of_notMem (hE.rooms _ (item_mem hi))] at hs'
  subst hs'
  exact ⟨⟨h.buffer, hE, hlater⟩, rfl⟩

theorem Inv.finish (h : Inv blockOf ⟨s, ∅, .clearing i freed⟩)
    (hrun : (finish build freed).run s = .ok ((), s')) :
    Inv blockOf ⟨s', ∅, .program⟩ ∧ s'.live = s.live := by
  obtain ⟨hE, hlater⟩ : Emptying s ∧ s.later.items = [] := h.phase
  have hdone : ∀ {t : State} {roots : Items} {candidates : ℕ}, Buffer t ∅ →
      t = { s with rooms := s.rooms.clear, garbage := s.garbage.clear, roots := roots,
                   candidates := candidates } → ∀ n,
      Inv blockOf ⟨{ t with threshold := n, collecting := false }, ∅, .program⟩ ∧
        t.live = s.live := by
    intro t roots candidates hB ht n
    refine ⟨⟨hB.of_eq rfl rfl rfl rfl rfl rfl, ?_⟩, by rw [ht]⟩
    rw [ht]
    exact ⟨hE.mode, hE.stack, rfl, hlater, rfl⟩
  have hB : Buffer { s with rooms := s.rooms.clear, garbage := s.garbage.clear } ∅ :=
    h.buffer.of_eq rfl rfl rfl rfl rfl rfl
  have hspec : Ensures (fun _ => True) (Cycle.finish build freed)
      (fun _ s' => Inv blockOf ⟨s', ∅, .program⟩ ∧ s'.live = s.live) s := by
    rw [Cycle.finish, bind_iff, modify_iff, bind_iff]
    refine hB.compact.mono ?_
    rintro _ t ⟨ht, roots, candidates, heq⟩
    rw [bind_iff, get_iff, ite_iff]
    refine ⟨fun _ => ?_, fun _ => ?_⟩
    · rw [bind_iff, modify_iff, modify_iff]
      exact hdone ht heq _
    · rw [bind_iff]
      have hall : ∀ n, Ensures (fun _ => True) (do
          modify fun s => { s with threshold := n }
          modify fun s => { s with collecting := false } : Run Unit)
          (fun _ s' => Inv blockOf ⟨s', ∅, .program⟩ ∧ s'.live = s.live) t := by
        intro n
        rw [bind_iff, modify_iff, modify_iff]
        exact hdone ht heq n
      exact ensures_times (fun _ => hall _) (fun _ _ => hall _) fun _ _ => trivial
  exact hspec.of_run hrun

/-- **Every step** of a program and its collections keeps the buffer right, and frees no candidate
but in a sweep. -/
theorem Inv.step {c c' : Config} {e : Event} (h : Inv blockOf c)
    (hstep : Step blockOf build fuel c e c') : Inv blockOf c' ∧ Spares c e c' := by
  have hspares : ∀ {c c' : Config} {e : Event}, c'.state.live = c.state.live → Spares c e c' :=
    fun heq b hb _ => Or.inl (heq.symm ▸ hb)
  cases hstep with
  | call hp hcall =>
    obtain ⟨hB, hc⟩ := h.buffer.call hcall
    exact ⟨⟨hB, Phase.Holds.call hp h.phase hc⟩, fun b hb hbuf => Or.inl (hc.kept b hb hbuf)⟩
  | sweepOnly _ hheap hrun _ =>
    obtain ⟨h', hs⟩ := h.sweep hheap hrun
    have hB := h'.buffer
    have hrest : Resting _ := h'.phase.1
    refine ⟨⟨hB.of_eq rfl rfl rfl rfl rfl rfl, ?_⟩, hs⟩
    exact ⟨hrest.mode, hrest.stack, hrest.garbage, hrest.later, hrest.rooms⟩
  | sweep _ hheap hrun _ => exact h.sweep hheap hrun
  | walk hrun =>
    obtain ⟨h', hlive⟩ := h.walk hrun
    exact ⟨h', hspares hlive⟩
  | free hi hrun =>
    obtain ⟨h', hkept⟩ := h.free hi hrun
    exact ⟨h', fun b hb hbuf => Or.inl (hkept b hb hbuf)⟩
  | freed => exact ⟨⟨h.buffer, h.phase.1⟩, hspares rfl⟩
  | release _ => exact ⟨⟨h.buffer, h.phase⟩, hspares rfl⟩
  | resume => exact ⟨⟨h.buffer, h.phase⟩, hspares rfl⟩
  | released _ =>
    have hE : Emptying _ := h.phase
    have hB := h.buffer
    refine ⟨⟨hB.of_eq rfl rfl rfl rfl rfl rfl, ?_⟩, hspares rfl⟩
    exact ⟨⟨hE.mode, hE.stack, hE.rooms⟩, rfl⟩
  | room hi hrun =>
    obtain ⟨h', hlive⟩ := h.room hi hrun
    exact ⟨h', hspares hlive⟩
  | finish _ hrun =>
    obtain ⟨h', hlive⟩ := h.finish hrun
    exact ⟨h', hspares hlive⟩

end Steps

/-! ### From the start -/

/-- The heap before the first allocation. -/
def State.start (object : ℕ → Object) : State := { live := ∅, object := object }

def Config.start (object : ℕ → Object) : Config := ⟨State.start object, ∅, .program⟩

section Reached

variable {blockOf : ℕ → ℕ} {build : Build} {fuel : ℕ} {object : ℕ → Object} {c : Config}

theorem Inv.start : Inv blockOf (Config.start object) where
  buffer := by
    refine ⟨⟨notMem_empty 0, ?_, nodup_nil, ?_, rfl⟩, rfl⟩
    · exact fun b hb => absurd hb not_mem_nil
    · exact fun b hb => absurd hb (notMem_empty b)
  phase := ⟨rfl, rfl, rfl, rfl, rfl⟩

theorem Inv.of_reaches (hrun : Reaches blockOf build fuel (Config.start object) c) :
    Inv blockOf c :=
  hrun.invariant Inv.start fun h _ hstep => (h.step hstep).1

/-- **The candidate buffer**, in every state that a program and its collections reach. -/
theorem candidate_buffer (hrun : Reaches blockOf build fuel (Config.start object) c) :
    (∀ b ∈ c.state.live, c.state.buffered b = true ↔ b ∈ c.state.roots.items) ∧
    (∀ b ∈ c.state.roots.items, b ≠ 0 → b ∈ c.state.live ∧ c.state.roots.items.count b = 1) ∧
    c.state.candidates = (c.state.roots.items.filter (· ≠ 0)).length ∧
    c.state.dead = (c.state.uncounted c.dying).card ∧
    c.state.dead ≤ c.state.candidates ∧
    (∀ build, Ensures (fun _ => False) (collectionDue build) (fun _ _ => True) c.state) ∧
    ∀ e c', Step blockOf build fuel c e c' → Spares c e c' := by
  have h := Inv.of_reaches hrun
  have hB := h.buffer
  refine ⟨hB.buffered, fun b hb hne => ⟨hB.live b hb hne, hB.count_eq_one hb hne⟩, hB.candidates,
    hB.dead, hB.dead_le, ?_, fun e c' hstep => (h.step hstep).2⟩
  exact fun build => hB.collectionDue.mono fun _ _ _ => trivial

/-! ### A candidate that loses its last count -/

/-- An object with a count, which takes part. -/
def lone : Object := ⟨1, true, false, .black, false, false, []⟩

/-- The heap once the object is allocated. -/
def loneHeap : State := { State.start fun _ => lone with live := {16} }

/-- It is released until it is a dead candidate. -/
theorem candidate_buffer_dead : ∃ c : Config,
    Reaches id .debug 1 (Config.start fun _ => lone) c ∧ c.state.roots.items = [16] ∧
    c.state.dead = 1 ∧ c.state.roots.items.count 16 = 1 ∧ c.state.dead ≤ c.state.candidates := by
  have hallocate : Mutates (State.start fun _ => lone) ∅ loneHeap ∅ := by
    refine ⟨rfl, Finset.empty_subset _, by decide, fun b _ _ => ⟨rfl, List.not_mem_nil⟩,
      ?_, ?_, ?_, ?_⟩
    · exact fun b hb => absurd hb (Finset.notMem_empty b)
    · exact Finset.Subset.refl _
    · exact fun b hb => absurd hb (Finset.notMem_empty b)
    · exact fun b hb => absurd hb (Finset.notMem_empty b)
  have hlast : Mutates (loneHeap.listed 16) ∅ (loneHeap.listed 16) {16} := by
    refine ⟨rfl, Finset.Subset.refl _, by decide, fun b hb hnot => absurd hb hnot, fun _ _ => rfl,
      Finset.empty_subset _, ?_, fun _ _ _ => Iff.rfl⟩
    intro b hb _
    rw [Finset.mem_singleton.mp hb]
    decide
  have hrun : Reaches id .debug 1 (Config.start fun _ => lone)
      ⟨(loneHeap.listed 16).kept 16, ({16} : Finset ℕ).erase 16, .program⟩ := by
    refine Reaches.calls rfl (.tail (.tail (.tail (.tail (.refl _ _) (.mutate hallocate))
      (.suspect (b := 16) (by decide) (by decide) (by decide) rfl)) (.mutate hlast)) ?_)
    exact .free (by decide) (Or.inl (by decide)) rfl
  obtain ⟨-, honce, -, -, hle, -⟩ := candidate_buffer hrun
  exact ⟨_, hrun, rfl, rfl, (honce 16 (by decide) (by decide)).2, hle⟩

end Reached

end Cycle

end HdLang
