import HdLang.Cycle.Sweep

/-!
# A whole collection

The phases of `collect` one after the other: each one's result is what the next one starts from. What
they leave white is what the candidates reach and nothing else holds; freeing it leaves the counts of
the others exact.
-/

namespace HdLang

open Ensures List Finset

namespace Cycle

open RefGraph

section Phases

variable {E : Stop → Prop} {blockOf outside : ℕ → ℕ} {build : Build} {release : ℕ → Run Unit}
  {s s' : State} {W : Finset ℕ} {n : ℕ}

/-! ### From one phase to the next -/

theorem Sound.closed_parts (hS : Sound blockOf outside s) :
    ∀ y ∈ s.graph.parts, ∀ x ∈ s.graph.succ blockOf y, x ∈ s.graph.parts := fun y hy x hx =>
  Graph.mem_parts _ |>.mpr
    ⟨hS.closed y (Graph.mem_parts _ |>.mp hy).1 x hx, (Graph.mem_succ.mp hx).2⟩

theorem Sound.walkable (hS : Sound blockOf outside s) : Walkable blockOf s.graph s.count where
  closed := hS.closed_parts
  covered := by
    intro x hx
    rw [hS.exact x hx]
    exact Nat.le_add_right _ _

/-- The mark phase starts with every object black. -/
theorem Sound.markLoop (hS : Sound blockOf outside s) (hrest : Resting s) :
    MarkLoop blockOf s.graph s.count s 0 s := by
  have hblack : ∀ x ∈ s.graph.parts, s.colorOf x = .black := fun x hx =>
    hS.black x ((Graph.mem_parts _).mp hx).1
  have hroots : Roots s.roots.items 0 s :=
    ⟨rfl, rfl, fun _ h _ => h, hS.buffered, hS.roots_nodup, fun r hr hne => (hS.roots_live r hr hne).2⟩
  refine ⟨hroots, hrest.stack, hrest.mode, .refl s, ∅, ?_⟩
  constructor
  · rfl
  · simp
  · simp
  · simp
  · rw [hrest.stack]
    exact nodup_nil
  · intro x
    rw [hrest.stack]
    refine ⟨fun h => absurd h not_mem_nil, ?_⟩
    rintro ⟨hx, hg, -⟩
    rw [hblack x hx] at hg
    cases hg
  · intro x hx
    rw [hblack x hx]
    simp
  · simp
  · intro x hx hg
    rw [hblack x hx] at hg
    cases hg
  · rintro x ⟨hx, -⟩
    rw [take_zero] at hx
    cases hx

/-- What the mark phase leaves for the scan: `V` are the gray objects. -/
structure Marked (blockOf outside : ℕ → ℕ) (s : State) (V : Finset ℕ) (s' : State) : Prop where
  reached : Reached blockOf outside s.graph s.count V
  calm : Calm s s'
  roots : Roots s.roots.items s.roots.items.length s'
  /-- Every candidate that takes part is in `V`. -/
  candidates : ∀ r ∈ s.roots.items, r ≠ 0 → s.graph.part r → r ∈ V
  /-- Every object of `V` is reached from a candidate that is left. -/
  reach : ∀ x ∈ V, ∃ r ∈ s'.roots.items, r ≠ 0 ∧ s.graph.part r ∧ Reach (s.graph.succ blockOf) r x
  scan : ScanLoop blockOf outside s.graph s.count V s' 0 s'

theorem MarkLoop.marked (hS : Sound blockOf outside s)
    (hL : MarkLoop blockOf s.graph s.count s s.roots.items.length s') :
    ∃ V, Marked blockOf outside s V s' := by
  obtain ⟨hR, hs, hm, hc, V, hM⟩ := hL
  have hgray : ∀ x ∈ s.graph.parts, s'.colorOf x = .gray → x ∈ V := by
    intro x hx hg
    by_contra hxV
    have := (hM.mem_stack x).mpr ⟨hx, hg, hxV⟩
    rw [hs] at this
    cases this
  have hpending : pending V s' = V := by
    refine filter_true_of_mem fun x hx => Or.inl ?_
    rw [(hM.traced x hx).2]
    simp
  have hcandidates : ∀ r ∈ s.roots.items, r ≠ 0 → s.graph.part r → r ∈ V := by
    intro r hr hne hp
    have hlive := (hS.roots_live r hr hne).1
    exact hgray r ((Graph.mem_parts _).mpr ⟨hlive, hp⟩) (hM.seen r ⟨by rwa [take_length], hne, hp⟩)
  have hlen : s'.roots.items.take s.roots.items.length = s'.roots.items := by
    rw [← hR.length, take_length]
  refine ⟨V, ⟨⟨hS.walkable, fun x hx => (hM.traced x hx).1, ?_, ?_, hS.exact, hS.word⟩, hc, hR,
    hcandidates, ?_, ⟨.refl s', hs, hm, ?_⟩⟩⟩
  · intro y hy x hx
    have hxp := hS.closed_parts y (hM.traced y hy).1 x hx
    exact hgray x hxp ((hM.closed y hy x hx).resolve_right not_mem_nil)
  · exact fun x hx => (hS.aligned x ((Graph.mem_parts _).mp (hM.traced x hx).1).1).1
  · intro x hx
    obtain ⟨r, ⟨hr, hne, hp⟩, hrx⟩ := hM.reach x (hM.traced x hx).1 (hM.traced x hx).2
    exact ⟨r, hlen ▸ hr, hne, hp, hrx⟩
  · constructor
    · exact hM.graph
    · intro x hx
      have := hM.counts x hx
      rw [hpending]
      rwa [count_nil, Nat.add_zero] at *
    · rw [hs]
      exact fun e he => absurd he not_mem_nil
    · rw [hs]
      simp
    · exact fun z hz => absurd hz not_mem_nil
    · exact fun z hz => absurd hz not_mem_nil
    · intro x hx hw
      rw [(hM.traced x hx).2] at hw
      cases hw
    · intro x hx hxV
      have hw := hM.white x hx
      have hg : s'.colorOf x ≠ .gray := fun h => hxV (hgray x hx h)
      cases hcx : s'.colorOf x <;> simp_all
    · intro x hx hw
      rw [(hM.traced x hx).2] at hw
      cases hw
    · intro x hx hxp
      rw [hpending] at hxp
      exact absurd hx hxp
    · intro x hx hb
      rw [(hM.traced x hx).2] at hb
      cases hb
    · rintro r - ⟨hr, -⟩
      rw [take_zero] at hr
      cases hr

/-- What the scan phase leaves for the walk over garbage: `W` are the white objects. -/
structure Scanned (blockOf outside : ℕ → ℕ) (s : State) (V W : Finset ℕ) (s' : State) : Prop where
  settled : Settled blockOf outside s.graph s.count W s'
  calm : Calm s s'
  roots : Roots s.roots.items s.roots.items.length s'
  reach : ∀ x ∈ W, ∃ r ∈ s'.roots.items, r ≠ 0 ∧ s.graph.part r ∧ Reach (s.graph.succ blockOf) r x
  /-- Whatever was reached and is not white is pinned. -/
  pinned : ∀ x ∈ V, x ∉ W → Pinned blockOf outside s.graph V x
  stack : s'.stack.items = []
  mode : s'.mode = .idle

variable {V : Finset ℕ}

theorem Marked.scanned {s₂ : State} (hM : Marked blockOf outside s V s₂)
    (hL : ScanLoop blockOf outside s.graph s.count V s₂ s₂.roots.items.length s') :
    ∃ W, Scanned blockOf outside s V W s' := by
  obtain ⟨hst, hs, hm, hS⟩ := hL
  have hreach : ∀ x ∈ V, ∃ r ∈ V, Seen s.graph s₂.roots.items s₂.roots.items.length r ∧
      Reach (s.graph.succ blockOf) r x := by
    intro x hx
    obtain ⟨r, hr, hne, hp, hrx⟩ := hM.reach x hx
    exact ⟨r, hM.candidates r (hM.roots.sub r hr hne) hne hp, ⟨by rwa [take_length], hne, hp⟩, hrx⟩
  refine ⟨_, hS.settled hM.reached hs hreach, hM.calm.trans hst.toCalm,
    hM.roots.of_eq hst.toCalm.live hst.buffered hst.roots, ?_, ?_, hs, hm⟩
  · intro x hx
    obtain ⟨r, hr, h⟩ := hM.reach x (mem_filter.mp hx).1
    exact ⟨r, hst.roots ▸ hr, h⟩
  · intro x hx hxW
    obtain ⟨r, hrV, hr, hrx⟩ := hreach x hx
    have hng := (hS.not_gray hM.reached hs hr hrV hrx).2
    have hnw : s'.colorOf x ≠ .white := fun h => hxW (mem_filter.mpr ⟨hx, h⟩)
    refine hS.pinned x hx ?_
    cases hc : s'.colorOf x <;> simp_all

variable {G : Graph} {count : ℕ → ℕ}

theorem Settled.succ_parts (hW : Settled blockOf outside G count W s)
    (hclosed : ∀ y ∈ G.parts, ∀ x ∈ G.succ blockOf y, x ∈ G.parts) :
    ∀ y ∈ W, ∀ x ∈ G.succ blockOf y, x ∈ G.parts := fun y hy => hclosed y (hW.parts hy)

theorem Scanned.drainLoop (hrest : Resting s) (hS : Scanned blockOf outside s V W s') :
    DrainLoop blockOf s.graph s'.count W s' 0 s' := by
  have hg : s'.garbage.items = [] := by rw [hS.calm.garbage, hrest.garbage]
  have hl : s'.later.items = [] := by rw [hS.calm.later, hrest.later]
  have hr : s'.rooms.items = [] := by rw [hS.calm.rooms, hrest.rooms]
  have hroots : Roots s'.roots.items 0 s' :=
    { hS.roots with length := rfl, left := rfl, sub := fun _ h _ => h }
  refine ⟨hroots, ?_, hS.stack, hS.mode, ?_, fun _ _ => rfl, rfl, rfl, rfl, rfl⟩
  · rw [take_zero]
    exact fun r hr => absurd hr not_mem_nil
  constructor
  · exact hS.calm.graph
  · exact fun _ _ => rfl
  · intro x hx
    rw [hS.settled.color x hx, hg]
    simp
  · rw [hg]
    exact nodup_nil
  · rw [hg]
    exact fun x hx => absurd hx not_mem_nil
  · rw [hS.stack]
    exact fun x hx => absurd hx not_mem_nil
  · rw [hg]
    exact fun x hx => absurd hx not_mem_nil
  · rintro r ⟨hr, -⟩
    rw [take_zero] at hr
    cases hr
  · exact fun h hh => absurd hh not_mem_nil
  · rw [hl]
    exact fun x hx => absurd hx not_mem_nil
  · rw [hr]
    exact fun x hx => absurd hx not_mem_nil
  · have hle : ∑ x ∈ W with x ∉ s'.garbage.items, (s.graph.glue x).length ≤ s.graph.size :=
      calc ∑ x ∈ W with x ∉ s'.garbage.items, (s.graph.glue x).length
          ≤ ∑ x ∈ W, (s.graph.glue x).length := sum_le_sum_of_subset (filter_subset _ _)
        _ ≤ ∑ x ∈ s.graph.live, (s.graph.glue x).length :=
            sum_le_sum_of_subset (hS.settled.parts.trans (filter_subset _ _))
        _ ≤ s.graph.size := sum_le_sum fun x _ => Nat.le_succ _
    rw [hS.stack, Items.length, Items.length, hl, hr]
    simpa [holdsOf] using hle

variable {s₃ : State} {x : ℕ}

/-- Every object on a path to a white one is white, and taken objects take what follows. -/
theorem DrainLoop.path {s₀ : State} (hclosed : ∀ y ∈ G.parts, ∀ x ∈ G.succ blockOf y, x ∈ G.parts)
    (hW : Settled blockOf outside G count W s₀) (hL : DrainLoop blockOf G s₃.count W s₃ n s) {r : ℕ}
    (hrx : Reach (G.succ blockOf) r x) (hx : x ∈ W) (hr : r ∈ G.parts) :
    r ∈ W ∧ (r ∈ s.garbage.items → x ∈ s.garbage.items) := by
  induction hrx using Relation.ReflTransGen.head_induction_on with
  | refl => exact ⟨hx, fun h => h⟩
  | @head a b hab _ ih =>
    obtain ⟨hb, hbx⟩ := ih (hclosed a hr b hab)
    have ha := hW.back b hb a hr hab
    refine ⟨ha, fun hag => hbx ?_⟩
    have hs : a ∉ s.stack.items := by
      rw [hL.stack]
      exact not_mem_nil
    exact (hL.draining.closed a hag hs b hab hb).resolve_right not_mem_nil

/-- **All white objects are garbage** once every candidate is walked. -/
theorem Scanned.garbage {V : Finset ℕ} {s₃ : State} (hSound : Sound blockOf outside s)
    (hS : Scanned blockOf outside s V W s₃)
    (hL : DrainLoop blockOf s.graph s₃.count W s₃ s₃.roots.items.length s') (x : ℕ) :
    x ∈ s'.garbage.items ↔ x ∈ W := by
  refine ⟨hL.draining.white x, fun hx => ?_⟩
  obtain ⟨r, hr, hne, hp, hrx⟩ := hS.reach x hx
  have hlive := (hSound.roots_live r (hS.roots.sub r hr hne) hne).1
  obtain ⟨hrW, hrg⟩ := hL.path hSound.closed_parts hS.settled hrx hx
    ((Graph.mem_parts _).mpr ⟨hlive, hp⟩)
  exact hrg (hL.draining.seen r ⟨by rwa [take_length], hne, hp⟩ hrW)

/-! ### Freeing the garbage -/

/-- What the walks leave: `W`, the garbage, is to be freed. -/
structure Walked (blockOf outside : ℕ → ℕ) (s : State) (W : Finset ℕ) (s' : State) : Prop where
  graph : s'.graph = s.graph
  parts : W ⊆ s.graph.parts
  counts : ∀ x ∈ s.graph.parts, s'.count x + held (s.graph.succ blockOf) W x = s.count x
  outer : ∀ x ∈ W, s.graph.outer blockOf outside x = 0
  back : ∀ x ∈ W, ∀ y ∈ s.graph.parts, x ∈ s.graph.succ blockOf y → y ∈ W
  nodup : s'.garbage.items.Nodup
  garbage : ∀ x, x ∈ s'.garbage.items ↔ x ∈ W
  black : ∀ x ∈ s.graph.parts, s'.colorOf x = .black
  others : ∀ x, ¬s.graph.part x → s'.object x = s.object x
  roots : Roots s.roots.items s.roots.items.length s'
  dropped : ∀ r ∈ s'.roots.items, r ≠ 0 → ¬s.graph.part r
  rooms : ∀ r ∈ s'.rooms.items, ∃ y ∈ W, .room r ∈ s.graph.glue y
  room : s'.later.length + s'.rooms.length ≤ s.graph.size
  stack : s'.stack.items = []
  mode : s'.mode = .idle
  collected : s'.collected = s.collected
  collecting : s'.collecting = s.collecting
  threshold : s'.threshold = s.threshold
  sweepOnly : s'.sweepOnly = s.sweepOnly

theorem Scanned.walked (hSound : Sound blockOf outside s) (hS : Scanned blockOf outside s V W s₃)
    (hL : DrainLoop blockOf s.graph s₃.count W s₃ s₃.roots.items.length s') :
    Walked blockOf outside s W s' := by
  have hgarbage := hS.garbage hSound hL
  have hlen : s₃.roots.items.length = s.roots.items.length := hS.roots.length
  have hroots : Roots s.roots.items s.roots.items.length s' :=
    { hL.roots with
      length := hL.roots.length.trans hlen
      left := by
        rw [drop_length, ← hlen, ← hL.roots.length, drop_length]
      sub := fun r hr hne => hS.roots.sub r (hL.roots.sub r hr hne) hne }
  have hD := hL.draining
  refine ⟨hD.graph, hS.settled.parts, ?_, hS.settled.outer, hS.settled.back, hD.nodup, hgarbage, ?_, ?_,
    hroots, ?_, hD.rooms, ?_, hL.stack, hL.mode, hL.collected.trans hS.calm.collected,
    hL.collecting.trans hS.calm.collecting, hL.threshold.trans hS.calm.threshold,
    hL.sweepOnly.trans hS.calm.sweepOnly⟩
  · intro x hx
    rw [hD.counts x hx]
    exact hS.settled.counts x hx
  · intro x hx
    rw [hD.color x hx, if_neg fun h => h.2 ((hgarbage x).mpr h.1)]
  · exact fun x hx => (hL.others x hx).trans (hS.calm.others x hx)
  · intro r hr
    refine hL.dropped r ?_
    rwa [← hL.roots.length, take_length]
  · have hroom := hD.room
    omega

theorem freeGarbage_spec {l : List ℕ} : ∀ (left : ℕ) {i : ℕ} {s : State}, i + left = l.length →
    s.garbage.items = l → (∀ x ∈ l, s.buffered x = false) →
    Ensures E (freeGarbage cycleFree left i) (fun _ s' => s' = { s with
      live := s.live \ (l.drop i).toFinset, collected := s.collected ++ l.drop i }) s
  | 0, i, s, hn, hl, hb => by
    have hdrop : l.drop i = [] := drop_eq_nil_of_le (by omega)
    rw [freeGarbage, pure_iff, hdrop]
    simp
  | left + 1, i, s, hn, hl, hb => by
    have hi : i < l.length := by omega
    have hitem : s.garbage.item i = l[i] := by rw [Items.item, hl, getD_of_lt hi]
    rw [freeGarbage, bind_iff, get_iff, hitem, bind_iff]
    refine ensures_cycleFree (hb _ (getElem_mem hi)) ?_
    refine (freeGarbage_spec (s := { s with
      live := s.live.erase l[i], collected := s.collected ++ [l[i]] }) left (i := i + 1) (by omega) hl
      hb).mono ?_
    rintro _ _ rfl
    have hlive : s.live.erase l[i] \ (l.drop (i + 1)).toFinset = s.live \ (l.drop i).toFinset := by
      rw [drop_eq_getElem_cons hi, toFinset_cons]
      ext x
      simp only [mem_sdiff, mem_erase, mem_insert, not_or]
      tauto
    rw [hlive, drop_eq_getElem_cons hi, append_assoc]
    rfl

theorem Walked.unbuffered (hS : Sound blockOf outside s) (hW : Walked blockOf outside s W s') :
    ∀ x ∈ s'.garbage.items, s'.buffered x = false := by
  intro x hx
  obtain ⟨hlive, hp⟩ := (Graph.mem_parts _).mp (hW.parts ((hW.garbage x).mp hx))
  have hlive' : x ∈ s'.live := by rwa [show s'.live = s.live from congrArg Graph.live hW.graph]
  by_contra hb
  exact hW.dropped x (hW.roots.buffered x hlive' (by simpa using hb)) (hS.aligned x hlive).2 hp

/-- **Without its garbage the heap is sound.** -/
theorem Walked.sound (hS : Sound blockOf outside s) (hW : Walked blockOf outside s W s')
    {s'' : State} (hlive : s''.live = s'.live \ W) (hobject : s''.object = s'.object)
    (hroots : s''.roots = s'.roots) : Sound blockOf outside s'' := by
  have hlive' : s''.live = s.live \ W := by
    rw [hlive, show s'.live = s.live from congrArg Graph.live hW.graph]
  have hpart : s'.graph.part = s.graph.part := congrArg Graph.part hW.graph
  have hglue : s'.graph.glue = s.graph.glue := congrArg Graph.glue hW.graph
  have hgraph : s''.graph = s.graph.without W := by
    have h₁ : s''.graph.part = s'.graph.part := by simp only [State.graph, hobject]
    have h₂ : s''.graph.glue = s'.graph.glue := by simp only [State.graph, hobject]
    have h₃ : s''.graph = ⟨s''.live, s''.graph.part, s''.graph.glue⟩ := rfl
    rw [h₃, hlive', h₁, h₂, hpart, hglue]
    rfl
  have hcount : s''.count = s'.count := by
    funext x
    simp only [State.count, hobject]
  have hcolor : s''.colorOf = s'.colorOf := by
    funext x
    simp only [State.colorOf, hobject]
  have hbuffered : s''.buffered = s'.buffered := by
    funext x
    simp only [State.buffered, hobject]
  have hmem : ∀ {x}, x ∈ s''.live ↔ x ∈ s.live ∧ x ∉ W := by
    intro x
    rw [hlive', mem_sdiff]
  -- no survivor references garbage
  have hfree : ∀ {y x}, y ∈ s.live → y ∉ W → x ∈ s.graph.succ blockOf y → x ∉ W := by
    intro y x hy hyW hx hxW
    by_cases hp : s.graph.part y
    · exact hyW (hW.back x hxW y ((Graph.mem_parts _).mpr ⟨hy, hp⟩) hx)
    · have hpos := held_pos (T := s.graph.others) ((Graph.mem_others _).mpr ⟨hy, hp⟩)
        (Graph.mem_succ.mp hx).1
      have hzero := hW.outer x hxW
      unfold Graph.outer at hzero
      omega
  have hothers : s.graph.others \ W = s.graph.others := by
    refine sdiff_eq_self_of_disjoint (disjoint_left.mpr fun x hx hxW => ?_)
    exact ((Graph.mem_others _).mp hx).2 ((Graph.mem_parts _).mp (hW.parts hxW)).2
  have hroot : ∀ {r}, r ∈ s''.roots.items → r ≠ 0 → r ∈ s.roots.items ∧ ¬s.graph.part r := by
    intro r hr hne
    rw [hroots] at hr
    exact ⟨hW.roots.sub r hr hne, hW.dropped r hr hne⟩
  have hnotW : ∀ {r}, ¬s.graph.part r → r ∉ W := fun hp hrW =>
    hp ((Graph.mem_parts _).mp (hW.parts hrW)).2
  constructor
  · exact fun b hb => hS.aligned b (hmem.mp hb).1
  · intro y hy x hx
    rw [hgraph] at hx
    obtain ⟨hy, hyW⟩ := hmem.mp hy
    exact hmem.mpr ⟨hS.closed y hy x hx, hfree hy hyW hx⟩
  · intro y hy b hb hb'
    rw [hgraph] at hb
    exact hS.rooms y (hmem.mp hy).1 b hb (hmem.mp hb').1
  · intro x hx
    rw [hgraph, Graph.parts_without, mem_sdiff] at hx
    have hexact := hS.exact x hx.1
    have hcounts := hW.counts x hx.1
    have hsdiff : held (s.graph.succ blockOf) (s.graph.parts \ W) x +
        held (s.graph.succ blockOf) W x = held (s.graph.succ blockOf) s.graph.parts x :=
      held_sdiff hW.parts
    rw [hcount, hgraph, Graph.parts_without, Graph.outer, Graph.others_without, hothers]
    show s'.count x = held (s.graph.succ blockOf) (s.graph.parts \ W) x +
      s.graph.outer blockOf outside x
    omega
  · intro x hx
    rw [hgraph, Graph.parts_without, mem_sdiff] at hx
    have hword := hS.word x hx.1
    have hcounts := hW.counts x hx.1
    rw [hcount]
    omega
  · intro b hb
    obtain ⟨hb, -⟩ := hmem.mp hb
    rw [hcolor]
    by_cases hp : s.graph.part b
    · exact hW.black b ((Graph.mem_parts _).mpr ⟨hb, hp⟩)
    · rw [State.colorOf, hW.others b hp]
      exact hS.black b hb
  · rw [hroots]
    exact hW.roots.nodup
  · intro b hb hne
    obtain ⟨hbr, hp⟩ := hroot hb hne
    refine ⟨hmem.mpr ⟨(hS.roots_live b hbr hne).1, hnotW hp⟩, ?_⟩
    rw [hbuffered]
    exact hW.roots.flagged b (hroots ▸ hb) hne
  · intro b hb hbuf
    rw [hroots]
    refine hW.roots.buffered b ?_ (hbuffered ▸ hbuf)
    rw [show s'.live = s.live from congrArg Graph.live hW.graph]
    exact (hmem.mp hb).1
  · intro b hb hne hz
    obtain ⟨hbr, hp⟩ := hroot hb hne
    rw [hcount, State.count, hW.others b hp] at hz
    obtain ⟨h₁, h₂, h₃⟩ := hS.spent b hbr hne hz
    rw [hgraph]
    exact ⟨h₁, h₂, fun y hy => h₃ y (hmem.mp hy).1⟩

theorem Walked.not_held (hW : Walked blockOf outside s W s') (hheld : Held blockOf outside s x)
    : x ∉ W := by
  have hpart : ∀ {x}, x ∈ W → s.graph.part x := fun hx =>
    ((Graph.mem_parts _).mp (hW.parts hx)).2
  have hother : ∀ {y x}, y ∈ s.graph.others → x ∈ s.graph.targets blockOf y → x ∉ W := by
    intro y x hy hyx hxW
    have hpos := held_pos (T := s.graph.others) hy hyx
    have hzero := hW.outer x hxW
    unfold Graph.outer at hzero
    omega
  induction hheld with
  | outside h =>
    intro hxW
    have hzero := hW.outer _ hxW
    unfold Graph.outer at hzero
    omega
  | other hy hyx => exact hother hy hyx
  | @step y x _ hlive hyx ih =>
    intro hxW
    by_cases hp : s.graph.part y
    · exact ih (hW.back x hxW y ((Graph.mem_parts _).mpr ⟨hlive, hp⟩)
        (Graph.mem_succ.mpr ⟨hyx, hpart hxW⟩))
    · exact hother ((Graph.mem_others _).mpr ⟨hlive, hp⟩) hyx hxW

end Phases

end Cycle

end HdLang
