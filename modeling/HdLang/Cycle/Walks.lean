import HdLang.Cycle.Buffer

/-!
# What the walks leave alone

The walks of a collection change counts and colors of objects that take part, and of the buffer only
what `drop_root` does. This needs no exact counts: it holds of every heap whose references are to
live objects, and whatever the counts do, so that an overflow of one is no more than the end of the
run. `Walk` is what one walk keeps and `walk_spec` what the three together do.
-/

namespace HdLang

open Ensures List

namespace Cycle

/-! ### One walk -/

/-- The block of an entry of the work list, which a scan tags. -/
def Mode.entry : Mode → ℕ → ℕ
  | scan, e => e - e % 16
  | restore, e => e - e % 16
  | _, e => e

/-- Live objects are aligned, their references are to live objects, their rooms are no objects. -/
structure Graph.Closed (blockOf : ℕ → ℕ) (G : Graph) : Prop where
  aligned : ∀ b ∈ G.live, b % 16 = 0
  closed : ∀ y ∈ G.live, ∀ x ∈ G.succ blockOf y, x ∈ G.live
  rooms : ∀ y ∈ G.live, ∀ b, .room b ∈ G.glue y → b ∉ G.live

theorem Items.forall_mem_push {P : ℕ → Prop} {a : Items} {v : ℕ} (h : ∀ x ∈ a.items, P x) (hv : P v)
    : ∀ x ∈ (a.push v).items, P x := by
  intro x hx
  rcases mem_append.mp hx with hx | hx
  · exact h x hx
  · exact mem_singleton.mp hx ▸ hv

/-- What a walk that began in `s₀` has done. -/
structure Walk (G : Graph) (m : Mode) (s₀ s : State) : Prop where
  graph : s.graph = G
  others : ∀ x, ¬G.part x → s.object x = s₀.object x
  buffered : s.buffered = s₀.buffered
  roots : s.roots = s₀.roots
  candidates : s.candidates = s₀.candidates
  dead : s.dead = s₀.dead
  collecting : s.collecting = s₀.collecting
  garbage : ∀ x ∈ s.garbage.items, x ∈ G.parts
  rooms : ∀ b ∈ s.rooms.items, b ∉ G.live
  stack : ∀ e ∈ s.stack.items, m.entry e ∈ G.parts

namespace Walk

variable {G : Graph} {m m' : Mode} {s₀ s : State} {b e n : ℕ} {c : Color}

section

variable (h : Walk G m s₀ s)
include h

theorem update (hb : G.part b) {f : Object → Object}
    (hpart : (f (s.object b)).takesPart = (s.object b).takesPart)
    (hglue : (f (s.object b)).glue = (s.object b).glue)
    (hbuf : (f (s.object b)).buffered = (s.object b).buffered) : Walk G m s₀ (s.update b f) where
  __ := h
  graph := (State.graph_update hpart hglue).trans h.graph
  others x hx := (State.object_update_of_part (h.graph.symm ▸ hb) (h.graph.symm ▸ hx)).trans
    (h.others x hx)
  buffered := by
    rw [← h.buffered]
    ext x
    simp only [State.buffered, State.object_update]
    split
    · next hx => rw [hx, hbuf]
    · rfl

theorem painted (hb : G.part b) : Walk G m s₀ (s.painted b c) := h.update hb rfl rfl rfl

theorem counted (hb : G.part b) : Walk G m s₀ (s.counted b n) := h.update hb rfl rfl rfl

theorem pushed (he : m.entry e ∈ G.parts) : Walk G m s₀ (s.pushed e) :=
  { h with stack := Items.forall_mem_push h.stack he }

theorem garbaged (hb : b ∈ G.parts) :
    Walk G m s₀ { s with garbage := s.garbage.push b } :=
  { h with garbage := Items.forall_mem_push h.garbage hb }

theorem roomed (hb : b ∉ G.live) :
    Walk G m s₀ { s with rooms := s.rooms.push b } :=
  { h with rooms := Items.forall_mem_push h.rooms hb }

theorem latered : Walk G m s₀ { s with later := s.later.push b } := { h with }

theorem setMode : Walk G m s₀ { s with mode := m' } := { h with }

theorem visited : Walk G m s₀ { s with visited := n } := { h with }

theorem popped : Walk G m s₀ { s with stack := s.stack.pop } :=
  { h with stack := fun x hx => h.stack x (mem_of_mem_dropLast hx) }

theorem top (hne : 0 < s.stack.length) : m.entry s.stack.top ∈ G.parts := by
  refine h.stack _ ?_
  have hne : s.stack.items ≠ [] := ne_nil_of_length_pos hne
  rw [Items.top, getLastD_eq_getLast?, List.getLast?_eq_some_getLast hne]
  exact getLast_mem hne

end

end Walk

/-! ### Traces -/

section Traces

variable {blockOf : ℕ → ℕ} {build : Build} {release : ℕ → Run Unit} {G : Graph} {m : Mode}
  {s₀ s : State} {y : ℕ} {hold : Hold}

variable {a : ℕ}

/-- The reference of a live object to an object that takes part is to a live one. -/
theorem mem_parts_of_reference (hC : G.Closed blockOf) (hy : y ∈ G.live)
    (hhold : .reference a ∈ G.glue y) (hne : blockOf a ≠ 0) (hp : G.part (blockOf a)) :
    blockOf a ∈ G.parts := by
  refine G.mem_parts.mpr ⟨hC.closed y hy _ (Graph.mem_succ.mpr ⟨?_, hp⟩), hp⟩
  exact mem_filterMap.mpr ⟨_, hhold, if_neg hne⟩

/-- The tag of an entry goes with the block's alignment. -/
theorem entry_add {t k : ℕ} (hC : G.Closed blockOf) (ht : t ∈ G.parts) (hk : k < 16) :
    t + k - (t + k) % 16 ∈ G.parts := by
  have haligned := hC.aligned t (G.mem_parts.mp ht).1
  rw [show t + k - (t + k) % 16 = t by omega]
  exact ht

theorem holdRoom_walk (hC : G.Closed blockOf) (h : Walk G m s₀ s) (hm : s.mode = m)
    (hidle : m ≠ .idle) (hy : y ∈ G.live) {r : ℕ} (hhold : .room r ∈ G.glue y) :
    Ensures (fun _ => True) (holdRoom r)
      (fun kept s' => kept = true ∧ Walk G m s₀ s' ∧ s'.mode = m) s := by
  simp only [holdRoom, bind_iff, get_iff, ite_iff, pushRoom, modify_iff, pure_iff]
  refine ⟨fun h => absurd (hm.symm.trans h) hidle, fun _ => ⟨fun _ => ?_, fun _ => ?_⟩⟩
  · exact ⟨trivial, h.roomed (hC.rooms y hy r hhold), hm⟩
  · exact ⟨trivial, h, hm⟩

variable {b : ℕ} {Q : ℕ → State → Prop}

theorem ensures_minus_of_forall (h : ∀ c, Q c s) :
    Ensures (fun _ => True) (minus build a b) Q s :=
  ensures_minus (fun _ => h _) (fun _ _ => h _) fun _ _ => trivial

theorem ensures_plus_of_forall (h : ∀ c, Q c s) :
    Ensures (fun _ => True) (plus build a b) Q s :=
  ensures_plus (fun _ => h _) (fun _ _ => h _) fun _ _ => trivial

/-- One visit, which takes the reference whatever the mode. -/
theorem visit_walk (hC : G.Closed blockOf) (h : Walk G m s₀ s) (hm : s.mode = m) (hidle : m ≠ .idle)
    (hy : y ∈ G.live) (hhold : .reference a ∈ G.glue y) :
    Ensures (fun _ => True) (visit blockOf build a)
      (fun taken s' => taken = true ∧ Walk G m s₀ s' ∧ s'.mode = m) s := by
  have hidle' : ¬s.mode = .idle := hm ▸ hidle
  simp only [visit, bind_iff, get_iff, if_neg hidle']
  rw [ite_iff]
  refine ⟨fun _ => pure_iff.mpr ⟨rfl, h, hm⟩, fun hne => ?_⟩
  rw [bind_iff, ensures_takesPart, h.graph]
  by_cases hp : G.part (blockOf a) = true
  · have ht := mem_parts_of_reference hC hy hhold hne hp
    cases m with
    | idle => exact absurd rfl hidle
    | collect =>
      simp only [hm, hp, not_true_eq_false, if_false, if_true, bind_iff, ensures_color, ite_iff,
        ensures_paint, pushGarbage, modify_iff, ensures_pushStack,
        pure_iff]
      exact ⟨fun _ => ⟨trivial, ((h.painted hp).garbaged ht).pushed ht, hm⟩,
        fun _ => ⟨trivial, h, trivial⟩⟩
    | mark =>
      simp only [hm, hp, reduceCtorEq, not_true_eq_false, if_false, if_true]
      rw [bind_iff, ensures_load, bind_iff]
      refine ensures_minus_of_forall fun c => ?_
      simp only [bind_iff, ensures_store, ensures_color, ite_iff, ensures_paint, ensures_pushStack,
        pure_iff]
      exact ⟨fun _ => ⟨trivial, ((h.counted hp).painted hp).pushed ht, hm⟩,
        fun _ => ⟨trivial, h.counted hp, hm⟩⟩
    | scan =>
      simp only [hm, hp, reduceCtorEq, not_true_eq_false, if_false, if_true, bind_iff,
        ensures_pushStack, pure_iff]
      exact ⟨trivial, h.pushed (entry_add hC ht (by decide)), hm⟩
    | restore =>
      simp only [hm, hp, reduceCtorEq, not_true_eq_false, if_false]
      rw [bind_iff, ensures_load, bind_iff]
      refine ensures_plus_of_forall fun c => ?_
      simp only [bind_iff, ensures_store, ensures_color, ite_iff, ensures_paint, ensures_pushStack,
        pure_iff]
      have hpushed := ((h.counted (n := c) hp).painted (c := .black) hp).pushed
        (entry_add (k := RESTORE) hC ht (by decide))
      exact ⟨fun _ => ⟨trivial, hpushed, hm⟩, fun _ => ⟨trivial, h.counted hp, hm⟩⟩
  · simp only [if_pos hp]
    by_cases hc : s.mode = .collect
    · simp only [if_pos hc, bind_iff, pushLater, modify_iff, pure_iff]
      exact ⟨trivial, h.latered, hm⟩
    · rw [if_neg hc, pure_iff]
      exact ⟨rfl, h, hm⟩

theorem traceHold_walk (hC : G.Closed blockOf) (h : Walk G m s₀ s) (hm : s.mode = m)
    (hidle : m ≠ .idle) (hy : y ∈ G.live) (hhold : hold ∈ G.glue y) :
    Ensures (fun _ => True) (traceHold blockOf build release hold)
      (fun _ s' => Walk G m s₀ s' ∧ s'.mode = m) s := by
  cases hold with
  | room r =>
    rw [traceHold, bind_iff]
    refine (holdRoom_walk hC h hm hidle hy hhold).mono ?_
    rintro _ s' ⟨rfl, hW⟩
    rw [if_pos rfl, pure_iff]
    exact hW
  | reference a =>
    rw [traceHold, bind_iff]
    refine (visit_walk hC h hm hidle hy hhold).mono ?_
    rintro _ s' ⟨rfl, hW⟩
    rw [if_pos rfl, pure_iff]
    exact hW
theorem traceHolds_walk (hC : G.Closed blockOf) (hidle : m ≠ .idle) (hy : y ∈ G.live) :
    ∀ (holds : List Hold) {s : State}, (∀ hold ∈ holds, hold ∈ G.glue y) → Walk G m s₀ s →
      s.mode = m → Ensures (fun _ => True) (traceHolds blockOf build release holds)
        (fun _ s' => Walk G m s₀ s' ∧ s'.mode = m) s
  | [], s, _, h, hm => pure_iff.mpr ⟨h, hm⟩
  | hold :: holds, s, hsub, h, hm => by
    rw [traceHolds, bind_iff]
    refine (traceHold_walk hC h hm hidle hy (hsub hold mem_cons_self)).mono ?_
    rintro _ s' ⟨h', hm'⟩
    exact traceHolds_walk hC hidle hy holds (fun x hx => hsub x (mem_cons_of_mem _ hx)) h' hm'

/-- **A trace** of a live object. -/
theorem trace_walk (hC : G.Closed blockOf) (hidle : m ≠ .idle) (hy : y ∈ G.live) (h : Walk G m s₀ s)
    (hm : s.mode = m) :
    Ensures (fun _ => True) (cycleTrace blockOf build release y)
      (fun _ s' => Walk G m s₀ s' ∧ s'.mode = m) s := by
  rw [cycleTrace, bind_iff, get_iff]
  refine traceHolds_walk hC hidle hy _ (fun hold hmem => ?_) h hm
  have hglue : s.graph.glue y = G.glue y := by rw [h.graph]
  exact hglue ▸ hmem

/-! ### The loops -/

theorem stack_eq_nil (hzero : ¬0 < s.stack.length) : s.stack.items = [] :=
  eq_nil_of_length_eq_zero (Nat.eq_zero_of_not_pos hzero)

theorem markFrom_walk (hC : G.Closed blockOf) : ∀ (fuel : ℕ) {s : State}, Walk G .mark s₀ s →
    s.mode = .idle → Ensures (fun _ => True) (markFrom (cycleTrace blockOf build release) fuel)
      (fun _ s' => Walk G .mark s₀ s' ∧ s'.mode = .idle ∧ s'.stack.items = []) s
  | 0, s, _, _ => throw_iff.mpr trivial
  | fuel + 1, s, h, hm => by
    rw [markFrom, bind_iff, get_iff, ite_iff]
    refine ⟨fun hpos => ?_, fun hzero => pure_iff.mpr ⟨h, hm, stack_eq_nil hzero⟩⟩
    have hlive := (G.mem_parts.mp (h.top hpos)).1
    simp only [popStack, bind_iff, get_iff, set_iff, pure_iff, modify_iff, ensures_setMode]
    refine (trace_walk hC (by decide) hlive h.popped.visited.setMode rfl).mono ?_
    rintro _ s' ⟨h', -⟩
    exact markFrom_walk hC fuel h'.setMode rfl

theorem drain_walk (hC : G.Closed blockOf) : ∀ (fuel : ℕ) {s : State}, Walk G .collect s₀ s →
    s.mode = .idle →
    Ensures (fun _ => True) (drain (cycleTrace blockOf build release) .collect fuel)
      (fun _ s' => Walk G .collect s₀ s' ∧ s'.mode = .idle ∧ s'.stack.items = []) s
  | 0, s, _, _ => throw_iff.mpr trivial
  | fuel + 1, s, h, hm => by
    rw [drain, bind_iff, get_iff, ite_iff]
    refine ⟨fun hpos => ?_, fun hzero => pure_iff.mpr ⟨h, hm, stack_eq_nil hzero⟩⟩
    have hlive := (G.mem_parts.mp (h.top hpos)).1
    simp only [popStack, bind_iff, get_iff, set_iff, pure_iff, ensures_setMode]
    refine (trace_walk hC (by decide) hlive h.popped.setMode rfl).mono ?_
    rintro _ s' ⟨h', -⟩
    exact drain_walk hC fuel h'.setMode rfl

/-- The tags of a scan's work list are a restore's. -/
theorem Walk.restoring (h : Walk G .scan s₀ s) : Walk G .restore s₀ s := { h with }

theorem Walk.scanning (h : Walk G .restore s₀ s) : Walk G .scan s₀ s := { h with }

theorem scanFrom_walk (hC : G.Closed blockOf) : ∀ (fuel : ℕ) {s : State}, Walk G .scan s₀ s →
    s.mode = .idle → Ensures (fun _ => True) (scanFrom (cycleTrace blockOf build release) fuel)
      (fun _ s' => Walk G .scan s₀ s' ∧ s'.mode = .idle ∧ s'.stack.items = []) s
  | 0, s, _, _ => throw_iff.mpr trivial
  | fuel + 1, s, h, hm => by
    rw [scanFrom, bind_iff, get_iff, ite_iff]
    refine ⟨fun hpos => ?_, fun hzero => pure_iff.mpr ⟨h, hm, stack_eq_nil hzero⟩⟩
    have hparts : s.stack.top - s.stack.top % 16 ∈ G.parts := h.top hpos
    obtain ⟨hlive, hp⟩ := G.mem_parts.mp hparts
    have hrest : ∀ {s' : State}, Walk G .scan s₀ s' → s'.mode = .idle →
        Ensures (fun _ => True) (scanFrom (cycleTrace blockOf build release) fuel)
          (fun _ s' => Walk G .scan s₀ s' ∧ s'.mode = .idle ∧ s'.stack.items = []) s' :=
      fun h' hm' => scanFrom_walk hC fuel h' hm'
    simp only [popStack, bind_iff, get_iff, set_iff, pure_iff, ite_iff, ensures_setMode,
      ensures_color, ensures_load, ensures_paint,
      ensures_pushStack]
    refine ⟨fun _ => ?_, fun _ => ⟨fun _ => ⟨fun _ => ?_, fun _ => ?_⟩, fun _ => hrest h.popped hm⟩⟩
    · -- what a black object references gets its counts back
      refine (trace_walk hC (by decide) hlive h.popped.restoring.setMode rfl).mono ?_
      rintro _ s' ⟨h', -⟩
      exact hrest h'.scanning.setMode rfl
    · exact hrest ((h.popped.painted hp).pushed (entry_add hC hparts (by decide))) hm
    · refine (trace_walk hC (by decide) hlive (h.popped.painted hp).setMode rfl).mono ?_
      rintro _ s' ⟨h', -⟩
      exact hrest h'.setMode rfl

end Traces

/-! ### The candidates -/

/-- The walks that began in `s₀`, between two candidates. -/
structure Between (G : Graph) (s₀ s : State) : Prop where
  graph : s.graph = G
  others : ∀ x, ¬G.part x → s.object x = s₀.object x
  listed : Listed s
  sub : ∀ r ∈ s.roots.items, r ≠ 0 → r ∈ s₀.roots.items
  length : s.roots.items.length = s₀.roots.items.length
  dead : s.dead = s₀.dead
  collecting : s.collecting = s₀.collecting
  garbage : ∀ x ∈ s.garbage.items, x ∈ G.parts
  rooms : ∀ b ∈ s.rooms.items, b ∉ G.live
  stack : s.stack.items = []
  mode : s.mode = .idle

namespace Between

variable {blockOf : ℕ → ℕ} {build : Build} {release : ℕ → Run Unit} {G : Graph} {m : Mode}
  {s₀ s s' : State} {i r fuel : ℕ}

section

variable (h : Between G s₀ s)
include h

theorem walk : Walk G m s s :=
  ⟨h.graph, fun _ _ => rfl, rfl, rfl, rfl, rfl, rfl, h.garbage, h.rooms, by simp [h.stack]⟩

theorem walked (hW : Walk G m s s') (hmode : s'.mode = .idle) (hstack : s'.stack.items = [])
    : Between G s₀ s' where
  __ := hW
  others x hx := (hW.others x hx).trans (h.others x hx)
  listed := h.listed.of_eq (congrArg Graph.live (hW.graph.trans h.graph.symm)) hW.buffered hW.roots
    hW.candidates
  sub := by
    rw [hW.roots]
    exact h.sub
  length := by
    rw [hW.roots]
    exact h.length
  dead := hW.dead.trans h.dead
  collecting := hW.collecting.trans h.collecting
  stack := hstack
  mode := hmode

theorem dropped (hne : s.roots.item i ≠ 0) (hp : G.part (s.roots.item i)) :
    Between G s₀ (s.dropped i (s.roots.item i)) where
  __ := h
  graph := State.graph_unbuffered.trans h.graph
  others x hx :=
    (State.object_dropped (h.graph.symm ▸ hp) (h.graph.symm ▸ hx)).trans (h.others x hx)
  listed := h.listed.dropped hne
  sub r hr hr₀ := h.sub r (mem_of_mem_set_zero hr hr₀) hr₀
  length := length_set.trans h.length

theorem mem_parts (hne : s.roots.item i ≠ 0) (hp : G.part (s.roots.item i)) :
    s.roots.item i ∈ G.parts := by
  refine G.mem_parts.mpr ⟨?_, hp⟩
  have hlt : i < s.roots.items.length := by
    by_contra hle
    rw [Items.item, getD_eq_getElem?_getD, List.getElem?_eq_none (Nat.le_of_not_lt hle)] at hne
    exact hne rfl
  have hmem : s.roots.item i ∈ s.roots.items := by
    rw [Items.item, getD_of_lt hlt]
    exact getElem_mem hlt
  have hlive : s.live = G.live := congrArg Graph.live h.graph
  exact hlive ▸ h.listed.live _ hmem hne

end

theorem mark (hC : G.Closed blockOf) (h : Between G s₀ s) (hr : r ∈ G.parts) :
    Ensures (fun _ => True) (mark (cycleTrace blockOf build release) fuel r)
      (fun _ s' => Between G s₀ s') s := by
  simp only [Cycle.mark, bind_iff, ensures_paint, ensures_pushStack]
  refine (markFrom_walk hC fuel ((h.walk.painted (G.mem_parts.mp hr).2).pushed hr) h.mode).mono ?_
  exact fun _ s' hwalk => h.walked hwalk.1 hwalk.2.1 hwalk.2.2

theorem scan (hC : G.Closed blockOf) (h : Between G s₀ s) (hr : r ∈ G.parts) :
    Ensures (fun _ => True) (scan (cycleTrace blockOf build release) fuel r)
      (fun _ s' => Between G s₀ s') s := by
  simp only [Cycle.scan, bind_iff, ensures_pushStack]
  refine (scanFrom_walk hC fuel (h.walk.pushed (entry_add hC hr (by decide))) h.mode).mono ?_
  exact fun _ s' hwalk => h.walked hwalk.1 hwalk.2.1 hwalk.2.2

end Between

section Walks

variable {blockOf : ℕ → ℕ} {build : Build} {release : ℕ → Run Unit} {G : Graph} {s₀ s : State}
  {fuel : ℕ}

theorem mem_take_set_zero {l : List ℕ} {i r : ℕ} (hi : i < l.length)
    (hr : r ∈ (l.set i 0).take (i + 1)) (hne : r ≠ 0) : r ∈ l.take i := by
  rw [take_succ_eq_append_getElem (by simpa using hi), mem_append, mem_singleton, getElem_set_self,
    take_set_of_le (le_refl i)] at hr
  exact hr.resolve_right hne

/-- **The walks** keep the buffer's list: at their end no candidate takes part. -/
theorem walk_spec (hC : G.Closed blockOf) (h : Between G s₀ s₀) :
    Ensures (fun _ => True) (walk (cycleTrace blockOf build release) fuel)
      (fun _ s' => Between G s₀ s' ∧ ∀ r ∈ s'.roots.items, r ≠ 0 → ¬G.part r) s₀ := by
  have hlen : s₀.roots.length = s₀.roots.items.length := rfl
  rw [walk, bind_iff, get_iff, bind_iff]
  refine (eachRoot_spec (I := fun _ s => Between G s₀ s) (fun _ _ _ h _ => h) ?_ _ (Nat.zero_add _)
    h).mono fun _ s₁ h₁ => ?_
  · intro i s _ h hne hp
    rw [h.graph] at hp
    rw [bind_iff, ensures_color, ite_iff]
    refine ⟨fun _ => h.mark hC (h.mem_parts hne hp), fun _ => ?_⟩
    rw [ensures_dropRoot]
    exact h.dropped hne hp
  · rw [bind_iff]
    refine (eachRoot_spec (I := fun _ s => Between G s₀ s) (fun _ _ _ h _ => h) ?_ _
      (Nat.zero_add _) h₁).mono fun _ s₂ h₂ => ?_
    · intro i s _ h hne hp
      rw [h.graph] at hp
      exact h.scan hC (h.mem_parts hne hp)
    · refine (eachRoot_spec
        (I := fun i s => Between G s₀ s ∧ ∀ r ∈ s.roots.items.take i, r ≠ 0 → ¬G.part r)
        ?_ ?_ _ (Nat.zero_add _) ⟨h₂, by simp⟩).mono ?_
      · rintro i s hi ⟨h, hout⟩ hskip
        have hlt : i < s.roots.items.length := h.length ▸ hi
        refine ⟨h, fun r hr hne hp => ?_⟩
        rcases (mem_take_succ hlt).mp hr with hr | rfl
        · exact hout r hr hne hp
        · exact hskip ⟨hne, h.graph ▸ hp⟩
      · rintro i s hi ⟨h, hout⟩ hne hp
        rw [h.graph] at hp
        have hlt : i < s.roots.items.length := h.length ▸ hi
        have hparts := h.mem_parts hne hp
        have hD := h.dropped hne hp
        have hout' : ∀ r ∈ (s.dropped i (s.roots.item i)).roots.items.take (i + 1), r ≠ 0 →
            ¬G.part r := fun r hr hr₀ => hout r (mem_take_set_zero hlt hr hr₀) hr₀
        rw [bind_iff, ensures_dropRoot, bind_iff, ensures_color, ite_iff]
        refine ⟨fun _ => ?_, fun _ => pure_iff.mpr ⟨hD, hout'⟩⟩
        simp only [bind_iff, ensures_paint, pushGarbage, modify_iff, ensures_pushStack]
        have hP := hD.walk (m := .collect).painted (c := .black) hp
        refine (drain_walk hC fuel ((hP.garbaged hparts).pushed hparts) hD.mode).mono ?_
        rintro _ s' ⟨hW, hmode, hstack⟩
        refine ⟨hD.walked hW hmode hstack, ?_⟩
        rw [hW.roots]
        exact hout'
      · rintro _ s₃ ⟨h₃, hout⟩
        refine ⟨h₃, fun r hr => hout r ?_⟩
        rwa [hlen, ← h₃.length, take_length]

end Walks

end Cycle

end HdLang
