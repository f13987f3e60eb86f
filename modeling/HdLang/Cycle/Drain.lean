import HdLang.Cycle.Scan
import Mathlib.Algebra.GroupWithZero.Nat

/-!
# The walk over garbage

`drain` takes the white objects that the candidates left reach: each is painted black, noted as
garbage and traced once, and what it holds of objects that do not take part is listed. `Draining` is
the walk's invariant: `holds` is what the running trace has still to visit.
-/

namespace HdLang

open Ensures List

namespace Cycle

open RefGraph

/-- The holds of the objects `blocks`, one after the other. -/
def holdsOf (G : Graph) (blocks : List ℕ) : ℕ := (blocks.map fun b => (G.glue b).length).sum

/-- **The garbage walk's invariant.** `D` are the candidates seen so far. -/
structure Draining (blockOf : ℕ → ℕ) (G : Graph) (count : ℕ → ℕ) (W : Finset ℕ) (D : ℕ → Prop)
    (holds : List Hold) (s : State) : Prop where
  graph : s.graph = G
  counts : ∀ x ∈ G.parts, s.count x = count x
  color : ∀ x ∈ G.parts, s.colorOf x = if x ∈ W ∧ x ∉ s.garbage.items then .white else .black
  nodup : s.garbage.items.Nodup
  white : ∀ x ∈ s.garbage.items, x ∈ W
  stack : ∀ x ∈ s.stack.items, x ∈ s.garbage.items
  closed : ∀ y ∈ s.garbage.items, y ∉ s.stack.items → ∀ z ∈ G.succ blockOf y, z ∈ W →
    z ∈ s.garbage.items ∨ z ∈ G.blocks blockOf holds
  seen : ∀ r, D r → r ∈ W → r ∈ s.garbage.items
  owned : ∀ h ∈ holds, ∃ y ∈ W, h ∈ G.glue y
  later : ∀ a ∈ s.later.items, ∃ y ∈ W, .reference a ∈ G.glue y ∧
    G.block blockOf (.reference a) = none
  rooms : ∀ r ∈ s.rooms.items, ∃ y ∈ W, .room r ∈ G.glue y
  room : s.later.length + s.rooms.length + holds.length + holdsOf G s.stack.items +
    ∑ x ∈ W with x ∉ s.garbage.items, (G.glue x).length ≤ G.size

/-- From `s` to `s'` only colors of objects that take part, the work list, the arrays of garbage and the
mode have changed. -/
structure Taking (s s' : State) : Prop where
  graph : s'.graph = s.graph
  others : ∀ x, ¬s.graph.part x → s'.object x = s.object x
  count : s'.count = s.count
  buffered : s'.buffered = s.buffered
  roots : s'.roots = s.roots
  collected : s'.collected = s.collected
  collecting : s'.collecting = s.collecting
  threshold : s'.threshold = s.threshold
  sweepOnly : s'.sweepOnly = s.sweepOnly

theorem Taking.trans {s₁ s₂ s₃ : State} (h : Taking s₁ s₂) (h' : Taking s₂ s₃) : Taking s₁ s₃ :=
  ⟨h'.graph.trans h.graph,
    fun x hx => (h'.others x (h.graph.symm ▸ hx)).trans (h.others x hx), h'.count.trans h.count, h'.buffered.trans h.buffered,
    h'.roots.trans h.roots, h'.collected.trans h.collected, h'.collecting.trans h.collecting,
    h'.threshold.trans h.threshold, h'.sweepOnly.trans h.sweepOnly⟩

section Drain

variable {E : Stop → Prop} {blockOf : ℕ → ℕ} {build : Build} {release : ℕ → Run Unit} {G : Graph}
  {count : ℕ → ℕ} {W : Finset ℕ} {D : ℕ → Prop} {hold : Hold} {holds : List Hold} {s : State}
  {t b : ℕ}

@[simp] theorem State.garbage_taken : (s.taken t).garbage.items = s.garbage.items ++ [t] := rfl

@[simp] theorem State.stack_taken : (s.taken t).stack.items = s.stack.items ++ [t] := rfl

theorem State.graph_taken : (s.taken t).graph = s.graph :=
  State.graph_painted (s := s) (b := t) (c := .black)

theorem State.count_taken : (s.taken t).count = s.count := funext fun _ => State.count_painted

theorem Taking.taken (hp : s.graph.part t) : Taking s (s.taken t) := ⟨State.graph_taken,
    fun _ hx => State.object_update_of_part (f := fun o => { o with color := .black }) hp hx,
    State.count_taken,
    funext fun _ => State.buffered_painted, rfl, rfl, rfl, rfl, rfl⟩

@[simp] theorem State.color_taken {x : ℕ} :
    (s.taken t).colorOf x = if x = t then .black else s.colorOf x := State.color_painted

theorem holdsOf_append {xs ys : List ℕ} : holdsOf G (xs ++ ys) = holdsOf G xs + holdsOf G ys := by
  simp [holdsOf]

@[simp] theorem holdsOf_singleton : holdsOf G [b] = (G.glue b).length := by simp [holdsOf]

namespace Draining

section

variable (hD : Draining blockOf G count W D holds s)
include hD

theorem color_eq_white (ht : t ∈ G.parts) :
    s.colorOf t = .white ↔ t ∈ W ∧ t ∉ s.garbage.items := by
  rw [hD.color t ht]
  split <;> simp_all

theorem taken (ht : t ∈ W) (htg : t ∉ s.garbage.items)
    : Draining blockOf G count W (fun r => D r ∨ r = t) holds (s.taken t) := by
  have hmem : ∀ {x}, x ∈ s.garbage.items → x ∈ (s.taken t).garbage.items := fun h =>
    mem_append_left _ h
  have hlast : t ∈ (s.taken t).garbage.items := by simp
  have hroom := hD.room
  have hrest : (∑ x ∈ W with x ∉ (s.taken t).garbage.items, (G.glue x).length) + (G.glue t).length =
      ∑ x ∈ W with x ∉ s.garbage.items, (G.glue x).length := by
    have herase : (W.filter fun x => x ∉ (s.taken t).garbage.items) =
        (W.filter fun x => x ∉ s.garbage.items).erase t := by
      ext x
      simp only [State.garbage_taken, mem_append, mem_singleton, Finset.mem_filter,
        Finset.mem_erase]
      tauto
    rw [herase]
    exact Finset.sum_erase_add _ _ (Finset.mem_filter.mpr ⟨ht, htg⟩)
  constructor
  · exact State.graph_taken.trans hD.graph
  · rw [State.count_taken]
    exact hD.counts
  · intro x hx
    rw [State.color_taken, State.garbage_taken, hD.color x hx]
    by_cases hxt : x = t <;> simp [hxt]
  · rw [State.garbage_taken, ← concat_eq_append]
    exact hD.nodup.concat htg
  · intro x hx
    rcases mem_append.mp hx with h | h
    · exact hD.white x h
    · exact mem_singleton.mp h ▸ ht
  · intro x hx
    rcases mem_append.mp hx with h | h
    · exact hmem (hD.stack x h)
    · exact mem_singleton.mp h ▸ hlast
  · intro y hy hys z hz hzW
    rw [State.stack_taken, mem_append, not_or] at hys
    rcases mem_append.mp hy with h | h
    · exact (hD.closed y h hys.1 z hz hzW).imp_left hmem
    · exact absurd h hys.2
  · rintro r (hr | rfl) hrW
    · exact hmem (hD.seen r hr hrW)
    · exact hlast
  · exact hD.owned
  · exact hD.later
  · exact hD.rooms
  · rw [State.stack_taken, holdsOf_append, holdsOf_singleton]
    show s.later.length + s.rooms.length + _ + _ + _ ≤ _
    omega

theorem mono {D' : ℕ → Prop} (h : ∀ r, D' r → D r) :
    Draining blockOf G count W D' holds s :=
  { hD with seen := fun r hr hrW => hD.seen r (h r hr) hrW }

end

/-- A hold that was visited: what it references is taken if it is white. -/
theorem visited (hD : Draining blockOf G count W D (hold :: holds) s)
    (hmem : ∀ t, G.block blockOf hold = some t → t ∈ W → t ∈ s.garbage.items) :
    Draining blockOf G count W D holds s := by
  refine { hD with closed := ?_, owned := ?_, room := ?_ }
  · intro y hy hys z hz hzW
    rcases hD.closed y hy hys z hz hzW with h | h
    · exact Or.inl h
    · cases hb : G.block blockOf hold with
      | none =>
        rw [Graph.blocks_cons_none hb] at h
        exact Or.inr h
      | some t =>
        rw [Graph.blocks_cons_some hb] at h
        rcases mem_cons.mp h with rfl | h
        · exact Or.inl (hmem z hb hzW)
        · exact Or.inr h
  · exact fun h hh => hD.owned h (mem_cons_of_mem _ hh)
  · have hroom := hD.room
    rw [length_cons] at hroom
    omega

/-- A visited reference to an object that does not take part is listed. -/
theorem listed_later {a : ℕ} (hD : Draining blockOf G count W D (.reference a :: holds) s)
    (hb : G.block blockOf (.reference a) = none) :
    Draining blockOf G count W D holds { s with later := s.later.push a } := by
  obtain ⟨h₁, h₂, h₃, h₄, h₅, h₆, h₇, h₈, h₉, h₁₀, h₁₁, h₁₂⟩ := hD
  rw [Graph.blocks_cons_none hb] at h₇
  refine ⟨h₁, h₂, h₃, h₄, h₅, h₆, h₇, h₈, fun h hh => h₉ h (mem_cons_of_mem _ hh), ?_, h₁₁, ?_⟩
  · intro a' ha'
    rcases mem_append.mp ha' with h | h
    · exact h₁₀ a' h
    · obtain ⟨y, hy, hg⟩ := h₉ _ mem_cons_self
      rw [mem_singleton.mp h]
      exact ⟨y, hy, hg, hb⟩
  · show (s.later.push a).length + s.rooms.length + holds.length + holdsOf G s.stack.items +
      ∑ x ∈ W with x ∉ s.garbage.items, (G.glue x).length ≤ G.size
    have hlen : (s.later.push a).length = s.later.length + 1 := by simp [Items.push, Items.length]
    rw [length_cons] at h₁₂
    omega

theorem listed_room {r : ℕ} (hD : Draining blockOf G count W D (.room r :: holds) s) :
    Draining blockOf G count W D holds { s with rooms := s.rooms.push r } := by
  obtain ⟨h₁, h₂, h₃, h₄, h₅, h₆, h₇, h₈, h₉, h₁₀, h₁₁, h₁₂⟩ := hD
  rw [Graph.blocks_cons_none (show G.block blockOf (.room r) = none from rfl)] at h₇
  refine ⟨h₁, h₂, h₃, h₄, h₅, h₆, h₇, h₈, fun h hh => h₉ h (mem_cons_of_mem _ hh), h₁₀, ?_, ?_⟩
  · intro r' hr'
    rcases mem_append.mp hr' with h | h
    · exact h₁₁ r' h
    · obtain ⟨y, hy, hg⟩ := h₉ _ mem_cons_self
      rw [mem_singleton.mp h]
      exact ⟨y, hy, hg⟩
  · show s.later.length + (s.rooms.push r).length + holds.length + holdsOf G s.stack.items +
      ∑ x ∈ W with x ∉ s.garbage.items, (G.glue x).length ≤ G.size
    have hlen : (s.rooms.push r).length = s.rooms.length + 1 := by simp [Items.push, Items.length]
    rw [length_cons] at h₁₂
    omega

/-- The target of a hold to visit takes part and is live. -/
theorem block_mem (hclosed : ∀ y ∈ W, ∀ x ∈ G.succ blockOf y, x ∈ G.parts)
    (hD : Draining blockOf G count W D (hold :: holds) s) (hb : G.block blockOf hold = some t) :
    t ∈ G.parts := by
  obtain ⟨y, hy, hg⟩ := hD.owned hold mem_cons_self
  exact hclosed y hy t (mem_filterMap.mpr ⟨hold, hg, hb⟩)

end Draining

/-- The turns that the walk can still take. -/
def drainTurns (W : Finset ℕ) (s : State) : ℕ :=
  s.stack.items.length + (W.filter fun x => x ∉ s.garbage.items).card

theorem drainTurns_taken (ht : t ∈ W) (htg : t ∉ s.garbage.items) :
    drainTurns W (s.taken t) = drainTurns W s := by
  have herase : (W.filter fun x => x ∉ (s.taken t).garbage.items) =
      (W.filter fun x => x ∉ s.garbage.items).erase t := by
    ext x
    simp only [State.garbage_taken, mem_append, mem_singleton, Finset.mem_filter, Finset.mem_erase]
    tauto
  have hmem : t ∈ W.filter fun x => x ∉ s.garbage.items := Finset.mem_filter.mpr ⟨ht, htg⟩
  have hpos := Finset.card_pos.mpr ⟨t, hmem⟩
  rw [drainTurns, drainTurns, herase, Finset.card_erase_of_mem hmem, State.stack_taken,
    length_append, length_singleton]
  omega

theorem traceHold_draining (hclosed : ∀ y ∈ W, ∀ x ∈ G.succ blockOf y, x ∈ G.parts) {s₀ : State}
    {n : ℕ} (hD : Draining blockOf G count W D (hold :: holds) s) (hm : s.mode = .collect)
    (hst : Taking s₀ s) (hn : drainTurns W s ≤ n) :
    Ensures E (traceHold blockOf build release hold) (fun _ s' => s'.mode = .collect ∧
      Taking s₀ s' ∧ drainTurns W s' ≤ n ∧ Draining blockOf G count W D holds s') s := by
  cases hb : G.block blockOf hold with
  | none =>
    refine traceHold_collect_none hm hD.graph hb ⟨hm, hst, hn, hD.visited fun t ht => ?_⟩ ?_ ?_
    · rw [hb] at ht
      cases ht
    · rintro a rfl
      exact ⟨hm, hst.trans ⟨rfl, fun _ _ => rfl, rfl, rfl, rfl, rfl, rfl, rfl, rfl⟩, hn, hD.listed_later hb⟩
    · rintro r rfl
      exact ⟨hm, hst.trans ⟨rfl, fun _ _ => rfl, rfl, rfl, rfl, rfl, rfl, rfl, rfl⟩, hn, hD.listed_room⟩
  | some t =>
    have ht := hD.block_mem hclosed hb
    have hcolor := hD.color_eq_white ht
    have hp : s.graph.part t := hD.graph ▸ (G.mem_parts.mp ht).2
    refine traceHold_collect hm hD.graph hb ?_
    split
    · next hwhite =>
      obtain ⟨htW, htg⟩ := hcolor.mp hwhite
      refine ⟨hm, hst.trans (.taken hp), (drainTurns_taken htW htg).le.trans hn,
        ((hD.taken htW htg).mono fun r hr => Or.inl hr).visited ?_⟩
      intro t' ht' _
      rw [hb] at ht'
      obtain rfl := Option.some.inj ht'
      simp
    · next hpale =>
      refine ⟨hm, hst, hn, hD.visited ?_⟩
      intro t' ht' ht'W
      rw [hb] at ht'
      obtain rfl := Option.some.inj ht'
      by_contra htg
      exact hpale (hcolor.mpr ⟨ht'W, htg⟩)

/-- **`drain`** takes all white objects that the work list reaches. -/
theorem drain_spec (hclosed : ∀ y ∈ W, ∀ x ∈ G.succ blockOf y, x ∈ G.parts) (s₀ : State) :
    ∀ (fuel : ℕ) {s : State}, Draining blockOf G count W D [] s → s.mode = .idle → Taking s₀ s →
      drainTurns W s < fuel →
      Ensures E (drain (cycleTrace blockOf build release) .collect fuel)
        (fun _ s' => Draining blockOf G count W D [] s' ∧ s'.stack.items = [] ∧ s'.mode = .idle ∧
          Taking s₀ s') s := by
  intro fuel
  induction fuel with
  | zero => exact fun _ _ _ h => absurd h (Nat.not_lt_zero _)
  | succ fuel ih =>
    intro s hD hidle hst hturns
    rw [drain, bind_iff, get_iff, ite_iff]
    refine ⟨fun hlen => ?_, fun hlen => ?_⟩
    · have hne : s.stack.items ≠ [] := ne_nil_of_length_pos hlen
      obtain ⟨xs, b, hxs⟩ := s.stack.items.eq_nil_or_concat.resolve_left hne
      rw [concat_eq_append] at hxs
      have htop : s.stack.top = b := by rw [Items.top, hxs]; simp
      have hpop : s.stack.pop.items = xs := by rw [Items.pop, hxs]; simp
      have hb : b ∈ s.garbage.items := hD.stack b (by rw [hxs]; simp)
      simp only [popStack, bind_iff, get_iff, set_iff, pure_iff, ensures_setMode]
      rw [htop]
      have hpopped : Draining blockOf G count W D (G.glue b)
          { s with stack := s.stack.pop, mode := .collect } := by
        obtain ⟨h₁, h₂, h₃, h₄, h₅, h₆, h₇, h₈, h₉, h₁₀, h₁₁, h₁₂⟩ := hD
        refine ⟨h₁, h₂, h₃, h₄, h₅, fun x hx => h₆ x ?_, ?_, h₈, fun h hh => ⟨b, h₅ b hb, hh⟩, h₁₀, h₁₁,
          ?_⟩
        · rw [hxs]
          exact mem_append_left _ (hpop ▸ hx)
        · intro y hy hys z hz hzW
          by_cases hyb : y = b
          · exact Or.inr (hyb ▸ hz)
          · refine (h₇ y hy ?_ z hz hzW).imp_right fun h => absurd h not_mem_nil
            rw [hxs, mem_append, mem_singleton, not_or]
            exact ⟨hpop ▸ hys, hyb⟩
        · rw [hxs, holdsOf_append, holdsOf_singleton, length_nil] at h₁₂
          show s.later.length + s.rooms.length + _ + holdsOf G s.stack.pop.items + _ ≤ _
          rw [hpop]
          show s.later.length + s.rooms.length + (G.glue b).length + holdsOf G xs +
            ∑ x ∈ W with x ∉ s.garbage.items, (G.glue x).length ≤ G.size
          omega
      have hturns' : drainTurns W { s with stack := s.stack.pop, mode := .collect } + 1 =
          drainTurns W s := by
        show s.stack.pop.items.length + _ + 1 = s.stack.items.length + _
        rw [hpop, hxs, length_append, length_singleton]
        exact Nat.add_right_comm _ _ _
      refine cycleTrace_spec (I := fun holds s' => s'.mode = .collect ∧ Taking s₀ s' ∧
        drainTurns W s' ≤ drainTurns W { s with stack := s.stack.pop, mode := .collect } ∧
          Draining blockOf G count W D holds s') ?_ ?_ ⟨rfl, ?_, le_refl _, ?_⟩
      · rintro hold holds s' ⟨hm, hst', hn, hD'⟩
        exact traceHold_draining hclosed hD' hm hst' hn
      · rintro s' ⟨-, hst', hn, hD'⟩
        obtain ⟨h₁, h₂, h₃, h₄, h₅, h₆, h₇, h₈, h₉, h₁₀, h₁₁, h₁₂⟩ := hD'
        refine ih (s := { s' with mode := .idle })
          ⟨h₁, h₂, h₃, h₄, h₅, h₆, h₇, h₈, h₉, h₁₀, h₁₁, h₁₂⟩ rfl
          (hst'.trans ⟨rfl, fun _ _ => rfl, rfl, rfl, rfl, rfl, rfl, rfl, rfl⟩) ?_
        have hsame : drainTurns W { s' with mode := .idle } = drainTurns W s' := rfl
        omega
      · exact hst.trans ⟨rfl, fun _ _ => rfl, rfl, rfl, rfl, rfl, rfl, rfl, rfl⟩
      · have hglue : s.graph.glue b = G.glue b := by rw [hD.graph]
        exact hglue ▸ hpopped
    · rw [pure_iff]
      refine ⟨hD, ?_, hidle, hst⟩
      rwa [Items.length, Nat.not_lt, Nat.le_zero, length_eq_zero_iff] at hlen

/-! ### The candidates -/

/-- The garbage walk at entry `i` of the buffer; `s₀` is the state when the loop began. -/
structure DrainLoop (blockOf : ℕ → ℕ) (G : Graph) (count : ℕ → ℕ) (W : Finset ℕ) (s₀ : State) (i : ℕ)
    (s : State) : Prop where
  roots : Roots s₀.roots.items i s
  dropped : ∀ r ∈ s.roots.items.take i, r ≠ 0 → ¬G.part r
  stack : s.stack.items = []
  mode : s.mode = .idle
  draining : Draining blockOf G count W (Seen G s₀.roots.items i) [] s
  others : ∀ x, ¬G.part x → s.object x = s₀.object x
  collected : s.collected = s₀.collected
  collecting : s.collecting = s₀.collecting
  threshold : s.threshold = s₀.threshold
  sweepOnly : s.sweepOnly = s₀.sweepOnly

theorem drainTurns_le (hW : W ⊆ G.parts) (hs : s.stack.items = []) : drainTurns W s ≤ G.size := by
  rw [drainTurns, hs, length_nil, Nat.zero_add]
  calc (W.filter fun x => x ∉ s.garbage.items).card ≤ W.card := Finset.card_filter_le _ _
    _ ≤ G.parts.card := Finset.card_le_card hW
    _ ≤ G.size := Graph.card_parts_le

namespace DrainLoop

variable {s₀ : State} {i : ℕ}

/-- An entry that is not a candidate taking part is passed over. -/
theorem skip (hL : DrainLoop blockOf G count W s₀ i s) (hi : i < s₀.roots.items.length)
    (hskip : ¬(s.roots.item i ≠ 0 ∧ s.graph.part (s.roots.item i))) :
    DrainLoop blockOf G count W s₀ (i + 1) s := by
  have hiR : i < s.roots.items.length := hL.roots.length ▸ hi
  rw [hL.draining.graph] at hskip
  refine { hL with
    roots := hL.roots.keep (.refl s), dropped := ?_, draining := hL.draining.mono ?_ }
  · intro r hr hne hp
    rcases (mem_take_succ hiR).mp hr with h | h
    · exact hL.dropped r h hne hp
    · obtain rfl : r = s.roots.item i := h
      exact hskip ⟨hne, hp⟩
  · rintro r ⟨hr, hne, hp⟩
    refine ⟨((mem_take_succ hi).mp hr).resolve_right fun h => ?_, hne, hp⟩
    rw [← hL.roots.item] at h
    exact hskip (h ▸ ⟨hne, hp⟩)

/-- The candidates that take part are out of the buffer up to the one at `i`. -/
theorem drop (hL : DrainLoop blockOf G count W s₀ i s) (hi : i < s₀.roots.items.length) :
    ∀ r ∈ (s.dropped i (s.roots.item i)).roots.items.take (i + 1), r ≠ 0 → ¬G.part r := by
  have hiR : i < s.roots.items.length := hL.roots.length ▸ hi
  rw [show (s.dropped i (s.roots.item i)).roots.items = s.roots.items.set i 0 from rfl]
  intro r hr hr0
  rw [take_succ_eq_append_getElem (by simpa using hiR), mem_append, mem_singleton, getElem_set_self,
    take_set_of_le (le_refl i)] at hr
  exact hL.dropped r (hr.resolve_right hr0) hr0

end DrainLoop

/-- **The garbage walk**: the white objects that the candidates left reach are garbage. -/
theorem drainRoots_spec (hW : W ⊆ G.parts) (hclosed : ∀ y ∈ W, ∀ x ∈ G.succ blockOf y, x ∈ G.parts)
    {fuel : ℕ} {s₀ : State} (hlive : ∀ r ∈ s₀.roots.items, r ≠ 0 → r ∈ G.live)
    (hfuel : G.size + 1 < fuel) (h : DrainLoop blockOf G count W s₀ 0 s) :
    Ensures E (eachRoot (fun i r => do
        dropRoot i r
        if (← color r) = .white then do
          paint r .black
          pushGarbage r
          pushStack r
          drain (cycleTrace blockOf build release) .collect fuel) s₀.roots.items.length 0)
      (fun _ s' => DrainLoop blockOf G count W s₀ s₀.roots.items.length s') s := by
  refine eachRoot_spec (I := DrainLoop blockOf G count W s₀) (fun i s hi hL => hL.skip hi) ?_
    s₀.roots.items.length (Nat.zero_add _) h
  intro i s hi hL hne hp
  have hroots := hL.roots.drop hi
  have hdropped := hL.drop hi
  have hD := hL.draining
  have hiR : i < s.roots.items.length := hL.roots.length ▸ hi
  have hmem : s.roots.item i ∈ s.roots.items := by
    rw [Items.item, getD_of_lt hiR]
    exact getElem_mem hiR
  have hseen : ∀ {r}, Seen G s₀.roots.items (i + 1) r →
      Seen G s₀.roots.items i r ∨ r = s.roots.item i := by
    rintro r ⟨hr, hr'⟩
    rcases (mem_take_succ hi).mp hr with h | h
    · exact Or.inl ⟨h, hr'⟩
    · exact Or.inr (h.trans hL.roots.item.symm)
  have hparts : s.roots.item i ∈ G.parts :=
    G.mem_parts.mpr ⟨hlive _ (hL.roots.sub _ hmem hne) hne, hD.graph ▸ hp⟩
  rw [bind_iff, ensures_dropRoot]
  have hcolor : (s.dropped i (s.roots.item i)).colorOf = s.colorOf :=
    funext fun _ => State.color_unbuffered
  have hD' : Draining blockOf G count W (Seen G s₀.roots.items i) []
      (s.dropped i (s.roots.item i)) := by
    obtain ⟨h₁, h₂, h₃, h₄, h₅, h₆, h₇, h₈, h₉, h₁₀, h₁₁, h₁₂⟩ := hD
    refine ⟨?_, ?_, ?_, h₄, h₅, h₆, h₇, h₈, h₉, h₁₀, h₁₁, h₁₂⟩
    · exact (State.graph_unbuffered).trans h₁
    · intro x hx
      exact (State.count_unbuffered).trans (h₂ x hx)
    · rw [hcolor]
      exact h₃
  have hs' : (s.dropped i (s.roots.item i)).stack.items = [] := hL.stack
  have hm' : (s.dropped i (s.roots.item i)).mode = .idle := hL.mode
  have hp' : (s.dropped i (s.roots.item i)).graph.part (s.roots.item i) := by
    rw [show (s.dropped i (s.roots.item i)).graph = s.graph from State.graph_unbuffered]
    exact hp
  have hothers : ∀ x, ¬G.part x → (s.dropped i (s.roots.item i)).object x = s₀.object x :=
    fun x hx => (State.object_dropped hp (hD.graph.symm ▸ hx)).trans (hL.others x hx)
  have hc₁ : (s.dropped i (s.roots.item i)).collected = s₀.collected := hL.collected
  have hc₂ : (s.dropped i (s.roots.item i)).collecting = s₀.collecting := hL.collecting
  have hc₃ : (s.dropped i (s.roots.item i)).threshold = s₀.threshold := hL.threshold
  have hc₄ : (s.dropped i (s.roots.item i)).sweepOnly = s₀.sweepOnly := hL.sweepOnly
  generalize s.dropped i (s.roots.item i) = p at *
  rw [bind_iff, ensures_color, ite_iff]
  refine ⟨fun hwhite => ?_, fun hpale => ?_⟩
  · obtain ⟨htW, htg⟩ := (hD'.color_eq_white hparts).mp hwhite
    simp only [bind_iff, ensures_paint, pushGarbage, modify_iff, ensures_pushStack]
    have htaken := hD'.taken htW htg
    have hle : drainTurns W (p.taken (s.roots.item i)) < fuel := by
      have := drainTurns_le hW hs'
      rw [drainTurns_taken htW htg]
      omega
    refine (drain_spec hclosed p fuel htaken hm' (.taken hp') hle).mono fun _ s' hdrained => ?_
    obtain ⟨hD'', hs'', hm'', hT⟩ := hdrained
    refine ⟨hroots.of_eq (congrArg Graph.live hT.graph) hT.buffered hT.roots, ?_, hs'', hm'',
      hD''.mono fun r hr => hseen hr, ?_, ?_, ?_, ?_, ?_⟩
    · rwa [hT.roots]
    · exact fun x hx => (hT.others x (hD'.graph.symm ▸ hx)).trans (hothers x hx)
    · rw [hT.collected, hc₁]
    · rw [hT.collecting, hc₂]
    · rw [hT.threshold, hc₃]
    · rw [hT.sweepOnly, hc₄]
  · rw [pure_iff]
    refine ⟨hroots, hdropped, hs', hm', ?_, hothers, hc₁, hc₂, hc₃, hc₄⟩
    refine { hD' with seen := fun r hr hrW => ?_ }
    rcases hseen hr with h | rfl
    · exact hD'.seen r h hrW
    · by_contra htg
      exact hpale ((hD'.color_eq_white hparts).mpr ⟨hrW, htg⟩)

end Drain

end Cycle

end HdLang
