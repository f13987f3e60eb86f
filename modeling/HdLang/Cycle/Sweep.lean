import HdLang.Cycle.Drain

/-!
# Sweeping the candidate buffer

`sweep` frees the candidates whose last count went and `compact` closes the gaps: both move the
entries that stay to the buffer's front. A swept heap is as sound as it was, and the same objects are
held from outside.
-/

namespace HdLang

open Ensures List

namespace Cycle

open RefGraph

/-! ### Moving entries to the front -/

/-- `gather` at entry `i`, with `j` entries kept: `orig` is what the buffer was. -/
structure Gathered (orig : List ℕ) (P : ℕ → Bool) (i j : ℕ) (s : State) : Prop where
  length : s.roots.items.length = orig.length
  le : j ≤ i
  front : s.roots.items.take j = (orig.take i).filter fun x => x ≠ 0 ∧ P x
  left : s.roots.items.drop i = orig.drop i

section Gather

variable {E : Stop → Prop} {orig : List ℕ} {P : ℕ → Bool} {i j : ℕ} {s : State}

theorem filter_take_succ {l : List ℕ} {p : ℕ → Bool} (hi : i < l.length) :
    (l.take (i + 1)).filter p = (l.take i).filter p ++ if p (l.getD i 0) then [l.getD i 0] else [] := by
  rw [take_succ_eq_append_getElem hi, filter_append, getD_of_lt hi]
  cases h : p l[i] <;> simp [h]

namespace Gathered

section

variable (hG : Gathered orig P i j s)
include hG

theorem item : s.roots.item i = orig.getD i 0 := by
  have h := congrArg (fun l : List ℕ => l.getD 0 0) hG.left
  simpa [Items.item, getD_eq_getElem?_getD] using h

theorem of_roots {s' : State} (h : s'.roots = s.roots) :
    Gathered orig P i j s' := by
  obtain ⟨h₁, h₂, h₃, h₄⟩ := hG
  exact ⟨by rwa [h], h₂, by rwa [h], by rwa [h]⟩

theorem skip (hi : i < orig.length) (h : ¬(orig.getD i 0 ≠ 0 ∧ P (orig.getD i 0)))
    : Gathered orig P (i + 1) j s where
  length := hG.length
  le := Nat.le_succ_of_le hG.le
  front := by rw [hG.front, filter_take_succ hi, if_neg (by simpa using h), append_nil]
  left := by rw [← drop_drop, ← drop_drop, hG.left]

theorem keep (hi : i < orig.length) (h : orig.getD i 0 ≠ 0 ∧ P (orig.getD i 0)) :
    Gathered orig P (i + 1) (j + 1) { s with roots := s.roots.setItem j (orig.getD i 0) } where
  length := by
    rw [Items.setItem, length_set]
    exact hG.length
  le := Nat.succ_le_succ hG.le
  front := by
    have hlt : j < s.roots.items.length := by
      rw [hG.length]
      exact lt_of_le_of_lt hG.le hi
    show (s.roots.items.set j _).take (j + 1) = _
    rw [take_succ_eq_append_getElem (by simpa using hlt), getElem_set_self,
      take_set_of_le (le_refl j), hG.front, filter_take_succ hi, if_pos (by simpa using h)]
  left := by
    show (s.roots.items.set j _).drop (i + 1) = _
    rw [drop_set_of_lt (Nat.lt_succ_of_le hG.le), ← drop_drop (i := 1), hG.left, drop_drop]

end

end Gathered

/-- **Through the buffer**: the entries that `keeps` keeps are at its front. -/
theorem gather_spec {keeps : ℕ → Run Bool} {I : ℕ → State → Prop}
    (hroots : ∀ i s r, I i s → I i { s with roots := r })
    (hzero : ∀ i s, i < orig.length → I i s → orig.getD i 0 = 0 → I (i + 1) s)
    (hkeeps : ∀ i s, i < orig.length → I i s → orig.getD i 0 ≠ 0 →
      Ensures E (keeps (orig.getD i 0))
        (fun b s' => b = P (orig.getD i 0) ∧ I (i + 1) s' ∧ s'.roots = s.roots) s) :
    ∀ (left : ℕ) {i j : ℕ} {s : State}, i + left = orig.length → Gathered orig P i j s → I i s →
      Ensures E (gather keeps left i j)
        (fun j' s' => Gathered orig P orig.length j' s' ∧ I orig.length s') s
  | 0, i, j, s, hn, hG, hI => by
    rw [Nat.add_zero] at hn
    rw [gather, pure_iff, ← hn]
    exact ⟨hn ▸ hG, hI⟩
  | left + 1, i, j, s, hn, hG, hI => by
    have hi : i < orig.length := by omega
    have hrest : ∀ {j' : ℕ} {s' : State}, Gathered orig P (i + 1) j' s' → I (i + 1) s' →
        Ensures E (gather keeps left (i + 1) j')
          (fun j' s' => Gathered orig P orig.length j' s' ∧ I orig.length s') s' := fun hG' hI' =>
      gather_spec hroots hzero hkeeps left (by omega) hG' hI'
    simp only [gather, rootAt, bind_iff, get_iff, pure_iff]
    rw [hG.item, ite_iff]
    refine ⟨fun hne => ?_, fun hz => ?_⟩
    · rw [bind_iff]
      refine (hkeeps i s hi hI hne).mono fun b s' hkept => ?_
      obtain ⟨hb, hI', hr⟩ := hkept
      have hG' := hG.of_roots hr
      rw [hb]
      split
      · next hP =>
        rw [bind_iff, setRoot, modify_iff]
        exact hrest (hG'.keep hi ⟨hne, hP⟩) (hroots _ _ _ hI')
      · next hP => exact hrest (hG'.skip hi fun h => hP h.2) hI'
    · have hz := not_not.mp hz
      exact hrest (hG.skip hi fun h => h.1 hz) (hzero i s hi hI hz)

end Gather

/-! ### The sweep -/

section Sweep

variable {E : Stop → Prop} {blockOf outside : ℕ → ℕ} {s : State} {b : ℕ}

/-- The candidate at `b` has lost its last count. -/
def State.lost (s : State) (b : ℕ) : Bool := b ≠ 0 ∧ s.count b = 0

/-- The graph without the objects of `D`. -/
def Graph.without (G : Graph) (D : Finset ℕ) : Graph := { G with live := G.live \ D }

/-- From `s` to `s'` the candidates `gone` were freed; the buffer may have changed. -/
structure Swept (s : State) (gone : List ℕ) (s' : State) : Prop where
  live : s'.live = s.live \ gone.toFinset
  object : ∀ x, s'.object x = if x ∈ gone then { s.object x with buffered := false } else s.object x
  collected : s'.collected = s.collected ++ gone
  stack : s'.stack = s.stack
  garbage : s'.garbage = s.garbage
  later : s'.later = s.later
  rooms : s'.rooms = s.rooms
  mode : s'.mode = s.mode
  threshold : s'.threshold = s.threshold
  sweepOnly : s'.sweepOnly = s.sweepOnly

namespace Swept

variable {gone : List ℕ} {s' : State} {x : ℕ}

theorem refl : Swept s [] s := ⟨by simp, by simp, by simp, rfl, rfl, rfl, rfl, rfl, rfl, rfl⟩

section

variable (h : Swept s gone s')
include h

theorem of_roots {r : Items} {c d : ℕ} :
    Swept s gone { s' with roots := r, candidates := c, dead := d } :=
  ⟨h.live, h.object, h.collected, h.stack, h.garbage, h.later, h.rooms, h.mode, h.threshold,
    h.sweepOnly⟩

theorem count : s'.count x = s.count x := by
  unfold State.count
  rw [h.object]
  split <;> rfl

theorem color : s'.colorOf x = s.colorOf x := by
  unfold State.colorOf
  rw [h.object]
  split <;> rfl

theorem buffered : s'.buffered x = if x ∈ gone then false else s.buffered x := by
  unfold State.buffered
  rw [h.object]
  split <;> rfl

theorem graph : s'.graph = s.graph.without gone.toFinset := by
  have hpart : ∀ x, (s'.object x).takesPart = (s.object x).takesPart := by
    intro x
    rw [h.object]
    split <;> rfl
  have hglue : ∀ x, (s'.object x).glue = (s.object x).glue := by
    intro x
    rw [h.object]
    split <;> rfl
  simp only [State.graph, Graph.without, hpart, hglue, h.live]

theorem append (hb : b ∉ gone) {s'' : State} (hlive : s''.live = s'.live.erase b)
    (hobject : s''.object = (s'.unbuffered b).object) (hcollected : s''.collected = s'.collected ++ [b])
    (hstack : s''.stack = s'.stack) (hgarbage : s''.garbage = s'.garbage)
    (hlater : s''.later = s'.later) (hrooms : s''.rooms = s'.rooms) (hmode : s''.mode = s'.mode)
    (hthreshold : s''.threshold = s'.threshold) (hsweepOnly : s''.sweepOnly = s'.sweepOnly) : Swept s (gone ++ [b]) s'' where
  live := by
    rw [hlive, h.live]
    ext x
    simp only [Finset.mem_erase, Finset.mem_sdiff, mem_toFinset, mem_append, mem_singleton]
    tauto
  object := by
    intro x
    rw [hobject, State.unbuffered, State.object_update, h.object, h.object]
    by_cases hx : x = b
    · simp [hx, hb]
    · simp [hx]
  collected := by rw [hcollected, h.collected, append_assoc]
  stack := hstack.trans h.stack
  garbage := hgarbage.trans h.garbage
  later := hlater.trans h.later
  rooms := hrooms.trans h.rooms
  mode := hmode.trans h.mode
  threshold := hthreshold.trans h.threshold
  sweepOnly := hsweepOnly.trans h.sweepOnly

end

end Swept

/-- The runtime's free of an object that is not a candidate. -/
theorem ensures_cycleFree {Q : Unit → State → Prop} (hb : s.buffered b = false)
    (hQ : Q () { s with live := s.live.erase b, collected := s.collected ++ [b] }) :
    Ensures E (cycleFree b) Q s := by
  have hb' : (s.object b).buffered = false := hb
  simp only [cycleFree, free, keep, freeBlock, bind_iff, modify_iff, get_iff, hb',
    Bool.false_eq_true, if_false, pure_iff]
  exact hQ

/-- **`sweep`** frees the candidates that have lost their last count and keeps the others. -/
theorem sweep_spec (hnodup : (s.roots.items.filter (· ≠ 0)).Nodup) :
    Ensures E (sweep cycleFree) (fun _ s' => Swept s (s.roots.items.filter s.lost) s' ∧
      s'.roots.items = s.roots.items.filter fun b => b ≠ 0 ∧ !s.lost b) s := by
  have hgone : ∀ i < s.roots.items.length, s.roots.items.getD i 0 ≠ 0 →
      s.roots.items.getD i 0 ∉ (s.roots.items.take i).filter s.lost := by
    intro i hi hne hmem
    have hmem := mem_of_mem_filter hmem
    rw [getD_of_lt hi] at hne hmem
    refine not_mem_set_zero hnodup hi hne ?_
    rw [set_eq_take_append_cons_drop, if_pos hi]
    exact mem_append_left _ hmem
  rw [sweep, bind_iff, get_iff, bind_iff]
  refine (gather_spec (P := fun b => !s.lost b)
    (I := fun i s' => Swept s ((s.roots.items.take i).filter s.lost) s') ?_ ?_ ?_
    s.roots.items.length (Nat.zero_add _) ⟨rfl, le_refl 0, by simp, by simp⟩
    (by simpa using Swept.refl)).mono ?_
  · exact fun i s' r h => h.of_roots
  · intro i s' hi h hz
    rwa [filter_take_succ hi, hz, if_neg (by simp [State.lost]), append_nil]
  · intro i s' hi h hne
    have hfresh := hgone i hi hne
    rw [bind_iff, ensures_load, ite_iff, h.count, filter_take_succ hi]
    generalize s.roots.items.getD i 0 = b at *
    refine ⟨fun hz => ?_, fun hnz => ?_⟩
    · have hlost : s.lost b = true := by simp [State.lost, hz, hne]
      simp only [bind_iff, change, modify_iff, pure_iff]
      refine ensures_cycleFree (s := s'.unbuffered b) (by simp) ⟨by simp [hlost], ?_, rfl⟩
      rw [if_pos hlost]
      exact h.append hfresh rfl rfl rfl rfl rfl rfl rfl rfl rfl rfl
    · have hlost : s.lost b = false := by simp [State.lost, hnz]
      rw [pure_iff, hlost, if_neg (by simp), append_nil]
      exact ⟨rfl, h, rfl⟩
  · rintro j s' ⟨hG, h⟩
    simp only [cutRoots, bind_iff, modify_iff]
    rw [take_length] at h
    refine ⟨h.of_roots, ?_⟩
    have hfront := hG.front
    rw [take_length] at hfront
    exact hfront

/-- **`compact`** closes the buffer's gaps. -/
theorem compact_spec : Ensures E compact (fun _ s' => ∃ candidates capacity, s' = { s with
    roots := ⟨s.roots.items.filter (· ≠ 0), capacity⟩, candidates := candidates }) s := by
  rw [compact, bind_iff, get_iff, bind_iff]
  refine (gather_spec (P := fun _ => true) (I := fun _ s' => ∃ r, s' = { s with roots := r }) ?_ ?_ ?_
    s.roots.items.length (Nat.zero_add _) ⟨rfl, le_refl 0, by simp, by simp⟩ ⟨s.roots, rfl⟩).mono ?_
  · rintro i s' r ⟨r', rfl⟩
    exact ⟨r, rfl⟩
  · exact fun i s' _ h _ => h
  · exact fun i s' _ h _ => pure_iff.mpr ⟨rfl, h, rfl⟩
  · rintro j s' ⟨hG, r, rfl⟩
    rw [cutRoots, modify_iff]
    refine ⟨j, r.capacity, ?_⟩
    have hfront := hG.front
    simp only [take_length, and_true, decide_not] at hfront
    simp only [hfront, decide_not]

/-! ### What a sweep keeps -/

section Without

variable {G : Graph} {D : Finset ℕ}

theorem Graph.parts_without : (G.without D).parts = G.parts \ D := by
  ext x
  simp only [Graph.mem_parts, Finset.mem_sdiff, Graph.without]
  tauto

theorem Graph.others_without : (G.without D).others = G.others \ D := by
  ext x
  simp only [Graph.mem_others, Finset.mem_sdiff, Graph.without]
  tauto

end Without

section

variable (hS : Sound blockOf outside s)
include hS

/-- What the candidates that have lost their last count hold: nothing. -/
theorem Sound.glue_lost (hb : b ∈ s.roots.items.filter s.lost) :
    s.graph.glue b = [] ∧ outside b = 0 ∧ ∀ y ∈ s.live, b ∉ s.graph.targets blockOf y := by
  obtain ⟨hmem, hlost⟩ := mem_filter.mp hb
  obtain ⟨hne, hzero⟩ : b ≠ 0 ∧ s.count b = 0 := by simpa [State.lost] using hlost
  exact hS.spent b hmem hne hzero

theorem Sound.targets_lost (hb : b ∈ s.roots.items.filter s.lost) :
    s.graph.targets blockOf b = [] := by
  rw [Graph.targets, (hS.glue_lost hb).1, filterMap_nil]

theorem Sound.succ_lost (hb : b ∈ s.roots.items.filter s.lost) :
    s.graph.succ blockOf b = [] := by
  rw [Graph.succ, (hS.glue_lost hb).1, Graph.blocks_nil]

theorem Sound.swept {s' : State} (h : Swept s (s.roots.items.filter s.lost) s')
    (hroots : s'.roots.items = s.roots.items.filter fun b => b ≠ 0 ∧ !s.lost b) :
    Sound blockOf outside s' := by
  have hlive : ∀ {x}, x ∈ s'.live ↔ x ∈ s.live ∧ x ∉ s.roots.items.filter s.lost := by
    intro x
    rw [h.live, Finset.mem_sdiff, mem_toFinset]
  have hsucc : ∀ y, s'.graph.succ blockOf y = s.graph.succ blockOf y := fun y => by rw [h.graph]; rfl
  have hmem : ∀ {r}, r ∈ s'.roots.items ↔ r ∈ s.roots.items ∧ r ≠ 0 ∧ s.count r ≠ 0 := by
    intro r
    rw [hroots, mem_filter]
    refine and_congr_right fun _ => ?_
    by_cases hr : r = 0 <;> simp [State.lost, hr]
  have hkept : ∀ {r}, r ∈ s'.roots.items → r ∉ s.roots.items.filter s.lost := by
    intro r hr hlost
    have hz : r ≠ 0 ∧ s.count r = 0 := by simpa [State.lost] using (mem_filter.mp hlost).2
    exact (hmem.mp hr).2.2 hz.2
  constructor
  · exact fun b hb => hS.aligned b (hlive.mp hb).1
  · intro y hy x hx
    rw [hsucc] at hx
    refine hlive.mpr ⟨hS.closed y (hlive.mp hy).1 x hx, fun hlost => ?_⟩
    exact (hS.glue_lost hlost).2.2 y (hlive.mp hy).1 (Graph.mem_succ.mp hx).1
  · intro y hy b hb hb'
    rw [h.graph] at hb
    exact hS.rooms y (hlive.mp hy).1 b hb (hlive.mp hb').1
  · intro x hx
    rw [h.graph, Graph.parts_without, Finset.mem_sdiff] at hx
    rw [h.count, hS.exact x hx.1, h.graph, Graph.parts_without, Graph.outer, Graph.outer,
      Graph.others_without]
    have hparts : held (s.graph.succ blockOf) (s.graph.parts \
        (s.roots.items.filter s.lost).toFinset) x = held (s.graph.succ blockOf) s.graph.parts x :=
      held_sdiff_of_none fun y hy => by
        rw [hS.succ_lost (mem_toFinset.mp hy)]
        exact not_mem_nil
    have hothers : held (s.graph.targets blockOf) (s.graph.others \
        (s.roots.items.filter s.lost).toFinset) x = held (s.graph.targets blockOf) s.graph.others x :=
      held_sdiff_of_none fun y hy => by
        rw [hS.targets_lost (mem_toFinset.mp hy)]
        exact not_mem_nil
    rw [← hparts, ← hothers]
    rfl
  · intro x hx
    rw [h.graph, Graph.parts_without, Finset.mem_sdiff] at hx
    rw [h.count]
    exact hS.word x hx.1
  · intro b hb
    rw [h.color]
    exact hS.black b (hlive.mp hb).1
  · rw [hroots, filter_filter]
    refine hS.roots_nodup.sublist ?_
    refine monotone_filter_right _ fun b hb => ?_
    simp only [Bool.and_eq_true, decide_eq_true_eq] at hb ⊢
    exact hb.1
  · intro b hb hne
    obtain ⟨hlive', hbuf⟩ := hS.roots_live b (hmem.mp hb).1 hne
    refine ⟨hlive.mpr ⟨hlive', hkept hb⟩, ?_⟩
    rw [h.buffered, if_neg (hkept hb)]
    exact hbuf
  · intro b hb hbuf
    obtain ⟨hb, hkeep⟩ := hlive.mp hb
    rw [h.buffered, if_neg hkeep] at hbuf
    have hroot := hS.buffered b hb hbuf
    refine hmem.mpr ⟨hroot, (hS.aligned b hb).2, fun hz => hkeep (mem_filter.mpr ⟨hroot, ?_⟩)⟩
    simp [State.lost, hz, (hS.aligned b hb).2]
  · intro b hb hne hz
    rw [h.count] at hz
    exact absurd hz (hmem.mp hb).2.2

/-- A candidate that lost its last count is not held. -/
theorem Sound.lost_not_held (hb : b ∈ s.roots.items.filter s.lost) :
    ¬Held blockOf outside s b := by
  obtain ⟨-, hout, htargets⟩ := hS.glue_lost hb
  intro hheld
  cases hheld with
  | outside h => omega
  | other hy h => exact htargets _ ((Graph.mem_others _).mp hy).1 h
  | step _ hlive h => exact htargets _ hlive h

theorem Sound.held_swept {s' : State} (h : Swept s (s.roots.items.filter s.lost) s') {x : ℕ}
    (hx : Held blockOf outside s x) :
    Held blockOf outside s' x := by
  have hkept : ∀ {y x}, x ∈ s.graph.targets blockOf y → y ∉ (s.roots.items.filter s.lost).toFinset := by
    intro y x hx hlost
    rw [hS.targets_lost (mem_toFinset.mp hlost)] at hx
    cases hx
  induction hx with
  | outside h => exact .outside h
  | @other y x hy hyx =>
    refine .other (y := y) ?_ (by rw [h.graph]; exact hyx)
    rw [h.graph, Graph.others_without, Finset.mem_sdiff]
    exact ⟨hy, hkept hyx⟩
  | @step y x _ hlive hyx ih =>
    refine .step ih ?_ (by rw [h.graph]; exact hyx)
    rw [h.live, Finset.mem_sdiff]
    exact ⟨hlive, hkept hyx⟩

end

end Sweep

end Cycle

end HdLang
