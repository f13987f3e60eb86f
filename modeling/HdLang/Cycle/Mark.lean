import HdLang.Cycle.Trace

/-!
# The mark phase

`mark` traces each gray object once and takes the counts of its references off their targets.
`Marking` is the invariant of its walk: the counts of `T`, the objects traced so far, are off, but for
those of `todo`, the references that the running trace has still to visit; the work list has the
gray objects that are not traced yet; and every gray object is reached from a candidate that stays
in the buffer.
-/

namespace HdLang

open Ensures List Nat

namespace Cycle

open RefGraph

/-- What the walks rely on: references between objects that take part stay among them, and their
counts cover those references. -/
structure Walkable (blockOf : ℕ → ℕ) (G : Graph) (count : ℕ → ℕ) : Prop where
  closed : ∀ y ∈ G.parts, ∀ x ∈ G.succ blockOf y, x ∈ G.parts
  covered : ∀ x ∈ G.parts, held (G.succ blockOf) G.parts x ≤ count x

/-- **The mark walk's invariant.** `K` are the candidates kept so far and `D` all that were seen. -/
structure Marking (blockOf : ℕ → ℕ) (G : Graph) (count : ℕ → ℕ) (K D : ℕ → Prop) (T : Finset ℕ)
    (todo : List ℕ) (s : State) : Prop where
  graph : s.graph = G
  counts : ∀ x ∈ G.parts,
    s.count x + held (G.succ blockOf) T x = count x + todo.count x
  traced : ∀ y ∈ T, y ∈ G.parts ∧ s.colorOf y = .gray
  owed : ∀ z ∈ todo, ∃ y ∈ T, z ∈ G.succ blockOf y
  nodup : s.stack.items.Nodup
  mem_stack : ∀ x, x ∈ s.stack.items ↔ x ∈ G.parts ∧ s.colorOf x = .gray ∧ x ∉ T
  white : ∀ x ∈ G.parts, s.colorOf x ≠ .white
  closed : ∀ y ∈ T, ∀ z ∈ G.succ blockOf y, s.colorOf z = .gray ∨ z ∈ todo
  reach : ∀ x ∈ G.parts, s.colorOf x = .gray → ∃ r, K r ∧ Reach (G.succ blockOf) r x
  seen : ∀ x, D x → s.colorOf x = .gray

/-- The turns a mark can still take: the work list, and the objects that can come on it. -/
def markTurns (G : Graph) (s : State) : ℕ :=
  s.stack.items.length + (G.parts.filter fun x => s.colorOf x ≠ .gray).card

section Mark

variable {E : Stop → Prop} {blockOf : ℕ → ℕ} {build : Build} {release : ℕ → Run Unit} {G : Graph}
  {count : ℕ → ℕ} {K D : ℕ → Prop} {T : Finset ℕ} {todo : List ℕ} {s : State} {t b : ℕ}

variable {s' : State}

namespace Marking

theorem of_eq (hM : Marking blockOf G count K D T todo s) (hgraph : s'.graph = s.graph)
    (hcount : s'.count = s.count) (hcolor : s'.colorOf = s.colorOf) (hstack : s'.stack = s.stack) :
    Marking blockOf G count K D T todo s' := by
  obtain ⟨h₁, h₂, h₃, h₄, h₅, h₆, h₇, h₈, h₉, h₁₀⟩ := hM
  constructor
  · exact hgraph.trans h₁
  · rwa [hcount]
  · rwa [hcolor]
  · exact h₄
  · rwa [hstack]
  · rwa [hcolor, hstack]
  · rwa [hcolor]
  · rwa [hcolor]
  · rwa [hcolor]
  · rwa [hcolor]

/-- The target of a reference to visit has a count to take. -/
theorem count_pos (hW : Walkable blockOf G count) (hM : Marking blockOf G count K D T (t :: todo) s) :
    t ∈ G.parts ∧ 0 < s.count t := by
  obtain ⟨y, hy, hty⟩ := hM.owed t mem_cons_self
  have ht := hW.closed y (hM.traced y hy).1 t hty
  have hcount := hM.counts t ht
  have hle := hW.covered t ht
  have hmono : held (G.succ blockOf) T t ≤ held (G.succ blockOf) G.parts t :=
    held_mono fun y hy => (hM.traced y hy).1
  rw [count_cons_self] at hcount
  exact ⟨ht, by omega⟩

theorem marked (hW : Walkable blockOf G count) (hM : Marking blockOf G count K D T (t :: todo) s) :
    Marking blockOf G count K D T todo (s.marked t) := by
  obtain ⟨ht, hpos⟩ := hM.count_pos hW
  obtain ⟨y₀, hy₀, hty₀⟩ := hM.owed t mem_cons_self
  have hcounts : ∀ x ∈ G.parts, (if x = t then s.count t - 1 else s.count x) +
      held (G.succ blockOf) T x = count x + todo.count x := by
    intro x hx
    have h := hM.counts x hx
    split
    · next hxt =>
      subst hxt
      rw [count_cons_self] at h
      omega
    · next hxt => rwa [count_cons_of_ne (Ne.symm hxt)] at h
  have hrest : ∀ z ∈ todo, ∃ y ∈ T, z ∈ G.succ blockOf y := fun z hz =>
    hM.owed z (mem_cons_of_mem _ hz)
  have hclosed : ∀ y ∈ T, ∀ z ∈ G.succ blockOf y, z = t ∨ s.colorOf z = .gray ∨ z ∈ todo := by
    intro y hy z hz
    rcases hM.closed y hy z hz with h | h
    · exact Or.inr (Or.inl h)
    · rcases mem_cons.mp h with h | h
      · exact Or.inl h
      · exact Or.inr (Or.inr h)
  unfold State.marked
  split
  · next hgray =>
    refine ⟨by simp [hM.graph], fun x hx => by simpa using hcounts x hx, by simpa using hM.traced, hrest,
      by simpa using hM.nodup, by simpa using hM.mem_stack, by simpa using hM.white, ?_,
      by simpa using hM.reach, by simpa using hM.seen⟩
    intro y hy z hz
    rw [State.color_counted]
    rcases hclosed y hy z hz with rfl | h
    · exact Or.inl hgray
    · exact h
  · next hpale =>
    have htT : t ∉ T := fun h => hpale (hM.traced t h).2
    have htS : t ∉ s.stack.items := fun h => hpale ((hM.mem_stack t).mp h).2.1
    have hcolor : ∀ x, s.colorOf x = .gray → (if x = t then Color.gray else s.colorOf x) = .gray := by
      intro x hx
      split
      · rfl
      · exact hx
    refine ⟨by simp [hM.graph], fun x hx => by simpa using hcounts x hx, ?_, hrest, ?_, ?_, ?_, ?_, ?_,
      ?_⟩
    · intro y hy
      simp only [State.color_pushed, State.color_painted, State.color_counted]
      exact ⟨(hM.traced y hy).1, hcolor y (hM.traced y hy).2⟩
    · simp only [State.stack_pushed, State.stack_painted, State.stack_counted]
      rw [← concat_eq_append]
      exact hM.nodup.concat htS
    · intro x
      simp only [State.stack_pushed, State.stack_painted, State.stack_counted, mem_append,
        mem_singleton, State.color_pushed, State.color_painted, State.color_counted,
        hM.mem_stack]
      by_cases hxt : x = t
      · subst hxt
        simp [ht, htT]
      · simp [hxt]
    · intro x hx
      simp only [State.color_pushed, State.color_painted, State.color_counted]
      split
      · simp
      · exact hM.white x hx
    · intro y hy z hz
      simp only [State.color_pushed, State.color_painted, State.color_counted]
      rcases hclosed y hy z hz with rfl | h | h
      · exact Or.inl (if_pos rfl)
      · exact Or.inl (hcolor z h)
      · exact Or.inr h
    · intro x hx hgray
      simp only [State.color_pushed, State.color_painted, State.color_counted] at hgray
      split at hgray
      · next hxt =>
        subst hxt
        obtain ⟨hy₀p, hy₀g⟩ := hM.traced y₀ hy₀
        obtain ⟨r, hr, hry⟩ := hM.reach y₀ hy₀p hy₀g
        exact ⟨r, hr, hry.tail hty₀⟩
      · exact hM.reach x hx hgray
    · intro x hx
      simp only [State.color_pushed, State.color_painted, State.color_counted]
      exact hcolor x (hM.seen x hx)

/-- The next object to trace: its references are to be visited. -/
theorem popped (hM : Marking blockOf G count K D T [] s) (hs : s.stack.items ≠ [])
    (hgraph : s'.graph = s.graph) (hcount : s'.count = s.count) (hcolor : s'.colorOf = s.colorOf)
    (hstack : s'.stack = s.stack.pop) :
    Marking blockOf G count K D (insert s.stack.top T) (G.succ blockOf s.stack.top) s' := by
  obtain ⟨xs, b, hxs⟩ := s.stack.items.eq_nil_or_concat.resolve_left hs
  rw [concat_eq_append] at hxs
  have htop : s.stack.top = b := by rw [Items.top, hxs]; simp
  have hpop : s'.stack.items = xs := by rw [hstack, Items.pop, hxs]; simp
  rw [htop]
  obtain ⟨hb, hbg, hbT⟩ := (hM.mem_stack b).mp (by rw [hxs]; simp)
  have hnd : (xs ++ [b]).Nodup := hxs ▸ hM.nodup
  have hbxs : b ∉ xs := fun h => (nodup_append.mp hnd).2.2 b h b (by simp) rfl
  refine ⟨hgraph.trans hM.graph, fun x hx => ?_, ?_, fun z hz => ⟨b, by simp, hz⟩,
    hpop ▸ (nodup_append.mp hnd).1, fun x => ?_, hcolor ▸ hM.white, ?_, hcolor ▸ hM.reach,
    hcolor ▸ hM.seen⟩
  · have h := hM.counts x hx
    rw [held_insert hbT, hcount]
    simp only [count_nil] at h
    omega
  · intro y hy
    rw [hcolor]
    rcases Finset.mem_insert.mp hy with rfl | hy
    · exact ⟨hb, hbg⟩
    · exact hM.traced y hy
  · rw [hpop, hcolor]
    have hmem := hM.mem_stack x
    rw [hxs, mem_append, mem_singleton] at hmem
    by_cases hxb : x = b
    · subst hxb
      simp [hbxs]
    · simp only [hxb, or_false] at hmem
      rw [hmem]
      simp [hxb]
  · intro y hy z hz
    rw [hcolor]
    rcases Finset.mem_insert.mp hy with rfl | hy
    · exact Or.inr hz
    · rcases hM.closed y hy z hz with h | h
      · exact Or.inl h
      · cases h

end Marking

theorem markTurns_marked (ht : t ∈ G.parts) : markTurns G (s.marked t) ≤ markTurns G s := by
  unfold State.marked markTurns
  split
  · simp
  · next hpale =>
    have herase : (G.parts.filter fun x =>
        (((s.counted t (s.count t - 1)).painted t .gray).pushed t).colorOf x ≠ .gray) =
        (G.parts.filter fun x => s.colorOf x ≠ .gray).erase t := by
      ext x
      simp only [State.color_pushed, State.color_painted, State.color_counted, Finset.mem_filter,
        Finset.mem_erase]
      by_cases hxt : x = t <;> simp [hxt]
    have hmem : t ∈ G.parts.filter fun x => s.colorOf x ≠ .gray := Finset.mem_filter.mpr ⟨ht, hpale⟩
    rw [herase, Finset.card_erase_of_mem hmem]
    have hpos := Finset.card_pos.mpr ⟨t, hmem⟩
    simp only [State.stack_pushed, State.stack_painted, State.stack_counted, length_append,
      length_singleton]
    omega

theorem markTurns_popped (hlen : 0 < s.stack.length) (hobject : s'.object = s.object)
    (hstack : s'.stack = s.stack.pop) : markTurns G s' + 1 = markTurns G s := by
  have hcolor : s'.colorOf = s.colorOf := by funext; simp only [State.colorOf, hobject]
  unfold Items.length at hlen
  simp only [markTurns, hcolor, hstack, Items.pop, length_dropLast]
  omega

theorem Still.marked (hp : s.graph.part t) : Still s (s.marked t) := by
  unfold State.marked
  split
  · exact Still.counted hp
  · refine ((Still.counted hp).trans (Still.painted ?_)).trans Still.pushed
    rwa [State.graph_counted]

@[simp] theorem State.mode_marked : (s.marked t).mode = s.mode := by
  unfold State.marked
  split <;> rfl

variable {s₀ : State}

/-- **`mark`'s walk** traces all that the work list reaches. -/
theorem markFrom_spec (hW : Walkable blockOf G count) : ∀ (fuel : ℕ) {T : Finset ℕ} {s : State},
    Marking blockOf G count K D T [] s → s.mode = .idle → Still s₀ s → markTurns G s < fuel →
    Ensures E (markFrom (cycleTrace blockOf build release) fuel)
      (fun _ s' => (∃ T', Marking blockOf G count K D T' [] s') ∧ s'.stack.items = [] ∧
        s'.mode = .idle ∧ Still s₀ s') s := by
  intro fuel
  induction fuel with
  | zero => exact fun _ _ _ h => absurd h (Nat.not_lt_zero _)
  | succ fuel ih =>
    intro T s hM hidle hstill hturns
    rw [markFrom, bind_iff, get_iff, ite_iff]
    refine ⟨fun hlen => ?_, fun hlen => ?_⟩
    · have hne : s.stack.items ≠ [] := ne_nil_of_length_pos hlen
      simp only [popStack, bind_iff, get_iff, set_iff, pure_iff, modify_iff, ensures_setMode]
      have hpop : Marking blockOf G count K D (insert s.stack.top T) (G.succ blockOf s.stack.top)
          { s with stack := s.stack.pop, visited := s.visited + 1, mode := .mark } :=
        hM.popped hne rfl rfl rfl rfl
      refine cycleTrace_spec (I := fun holds s' => s'.mode = .mark ∧ Still s₀ s' ∧
        markTurns G s' + 1 ≤ markTurns G s ∧ Marking blockOf G count K D (insert s.stack.top T)
          (G.blocks blockOf holds) s') ?_ ?_ ⟨rfl, ?_, ?_, ?_⟩
      · rintro hold holds s' ⟨hm, hst, hle, hM'⟩
        cases hb : G.block blockOf hold with
        | none =>
          rw [Graph.blocks_cons_none hb] at hM'
          exact traceHold_none (by simp [hm]) (by simp [hm]) hM'.graph hb ⟨hm, hst, hle, hM'⟩
        | some t =>
          rw [Graph.blocks_cons_some hb] at hM'
          obtain ⟨ht, hpos⟩ := hM'.count_pos hW
          refine traceHold_mark hm hM'.graph hb hpos ⟨by simp [hm], hst.trans (Still.marked
            (hM'.graph ▸ (G.mem_parts.mp ht).2)), ?_,
            hM'.marked hW⟩
          exact (Nat.add_le_add_right (markTurns_marked ht) 1).trans hle
      · rintro s' ⟨hm, hst, hle, hM'⟩
        refine ih (T := insert s.stack.top T) (hM'.of_eq rfl rfl rfl rfl) rfl (hst.trans .walk) ?_
        have hsame : markTurns G { s' with mode := .idle } = markTurns G s' := rfl
        omega
      · exact hstill.trans .walk
      · exact Nat.le_of_eq (markTurns_popped hlen rfl rfl)
      · have hglue : s.graph.glue s.stack.top = G.glue s.stack.top := by rw [hM.graph]
        exact hglue ▸ hpop
    · rw [pure_iff]
      refine ⟨⟨T, hM⟩, ?_, hidle, hstill⟩
      rwa [Items.length, Nat.not_lt, Nat.le_zero, length_eq_zero_iff] at hlen

/-- A candidate that is not gray starts a walk of its own. -/
theorem Marking.rooted (hM : Marking blockOf G count K D T [] s) (hs : s.stack.items = [])
    (hb : b ∈ G.parts) (hpale : s.colorOf b ≠ .gray) :
    Marking blockOf G count (fun r => K r ∨ r = b) (fun r => D r ∨ r = b) T []
      ((s.painted b .gray).pushed b) := by
  have hbT : b ∉ T := fun h => hpale (hM.traced b h).2
  have hcolor : ∀ x, s.colorOf x = .gray → (if x = b then Color.gray else s.colorOf x) = .gray := by
    intro x hx
    split
    · rfl
    · exact hx
  constructor
  · simp [hM.graph]
  · simpa using hM.counts
  · intro y hy
    simp only [State.color_pushed, State.color_painted]
    exact ⟨(hM.traced y hy).1, hcolor y (hM.traced y hy).2⟩
  · exact fun z hz => absurd hz not_mem_nil
  · simp [hs]
  · intro x
    simp only [State.stack_pushed, State.stack_painted, hs, nil_append, mem_singleton,
      State.color_pushed, State.color_painted]
    constructor
    · rintro rfl
      exact ⟨hb, if_pos rfl, hbT⟩
    · rintro ⟨hx, hg, hxT⟩
      by_contra hxb
      rw [if_neg hxb] at hg
      have := (hM.mem_stack x).mpr ⟨hx, hg, hxT⟩
      rw [hs] at this
      cases this
  · intro x hx
    simp only [State.color_pushed, State.color_painted]
    split
    · simp
    · exact hM.white x hx
  · intro y hy z hz
    simp only [State.color_pushed, State.color_painted]
    exact (hM.closed y hy z hz).imp_left (hcolor z)
  · intro x hx hg
    simp only [State.color_pushed, State.color_painted] at hg
    split at hg
    · next hxb => exact ⟨b, Or.inr rfl, hxb ▸ .refl⟩
    · obtain ⟨r, hr, h⟩ := hM.reach x hx hg
      exact ⟨r, Or.inl hr, h⟩
  · rintro x (hx | rfl)
    · simp only [State.color_pushed, State.color_painted]
      exact hcolor x (hM.seen x hx)
    · simp

variable {fuel : ℕ}

/-- **`mark`** of a candidate that is not gray. -/
theorem mark_spec (hW : Walkable blockOf G count) (hM : Marking blockOf G count K D T [] s)
    (hs : s.stack.items = []) (hidle : s.mode = .idle) (hb : b ∈ G.parts)
    (hpale : s.colorOf b ≠ .gray) (hfuel : G.parts.card < fuel) :
    Ensures E (mark (cycleTrace blockOf build release) fuel b)
      (fun _ s' => (∃ T', Marking blockOf G count (fun r => K r ∨ r = b) (fun r => D r ∨ r = b) T' [] s') ∧
        s'.stack.items = [] ∧ s'.mode = .idle ∧ Still s s') s := by
  rw [mark, bind_iff, ensures_paint, bind_iff, ensures_pushStack]
  refine markFrom_spec hW fuel (hM.rooted hs hb hpale) hidle
    ((Still.painted (hM.graph ▸ (G.mem_parts.mp hb).2)).trans Still.pushed) ?_
  have hlt : (G.parts.filter fun x => ((s.painted b .gray).pushed b).colorOf x ≠ .gray).card <
      G.parts.card :=
    Finset.card_lt_card (Finset.filter_ssubset.mpr ⟨b, hb, by simp⟩)
  simp only [markTurns, State.stack_pushed, State.stack_painted, hs, nil_append, length_singleton]
  omega

/-! ### The candidates -/

/-- **Through the candidates**: what `body` keeps for each that takes part holds at the end. -/
theorem eachRoot_spec {body : ℕ → ℕ → Run Unit} {I : ℕ → State → Prop} {n : ℕ}
    (hskip : ∀ i s, i < n → I i s → ¬(s.roots.item i ≠ 0 ∧ s.graph.part (s.roots.item i)) →
      I (i + 1) s)
    (hbody : ∀ i s, i < n → I i s → s.roots.item i ≠ 0 → s.graph.part (s.roots.item i) →
      Ensures E (body i (s.roots.item i)) (fun _ s' => I (i + 1) s') s) :
    ∀ (left : ℕ) {i : ℕ} {s : State}, i + left = n → I i s →
      Ensures E (eachRoot body left i) (fun _ s' => I n s') s
  | 0, i, s, hn, h => by
    rw [add_zero] at hn
    exact pure_iff.mpr (hn ▸ h)
  | left + 1, i, s, hn, h => by
    have hlt : i < n := by omega
    have hrest : ∀ {s'}, I (i + 1) s' → Ensures E (eachRoot body left (i + 1)) (fun _ s' => I n s') s' :=
      fun h' => eachRoot_spec hskip hbody left (by omega) h'
    simp only [eachRoot, rootAt, bind_iff, get_iff, pure_iff, ne_eq]
    rw [ite_iff]
    refine ⟨fun hne => ?_, fun hz => hrest (hskip i s hlt h fun h' => hz h'.1)⟩
    rw [bind_iff, ensures_takesPart, ite_iff]
    refine ⟨fun hp => ?_, fun hp => hrest (hskip i s hlt h fun h' => hp h'.2)⟩
    rw [bind_iff]
    exact (hbody i s hlt h hne hp).mono fun _ _ h' => hrest h'

/-- The candidate buffer while a loop over it is at `i`: `orig` is what it was. -/
structure Roots (orig : List ℕ) (i : ℕ) (s : State) : Prop where
  length : s.roots.items.length = orig.length
  left : s.roots.items.drop i = orig.drop i
  sub : ∀ r ∈ s.roots.items, r ≠ 0 → r ∈ orig
  buffered : ∀ x ∈ s.live, s.buffered x → x ∈ s.roots.items
  nodup : (s.roots.items.filter (· ≠ 0)).Nodup
  flagged : ∀ r ∈ s.roots.items, r ≠ 0 → s.buffered r = true

theorem getD_of_lt {l : List ℕ} {i : ℕ} (hi : i < l.length) : l.getD i 0 = l[i] := by
  simp [getD_eq_getElem?_getD, hi]

variable {l : List ℕ} {r : ℕ}

theorem mem_take_succ {i : ℕ} (hi : i < l.length) :
    r ∈ l.take (i + 1) ↔ r ∈ l.take i ∨ r = l.getD i 0 := by
  rw [take_succ_eq_append_getElem hi, mem_append, mem_singleton, getD_of_lt hi]

/-- The state with the candidate `r`, at `i`, out of the buffer. -/
def State.dropped (s : State) (i r : ℕ) : State :=
  State.unbuffered { s with roots := s.roots.setItem i 0, candidates := s.candidates - 1 } r

theorem ensures_dropRoot {i : ℕ} {Q : Unit → State → Prop} :
    Ensures E (dropRoot i r) Q s ↔ Q () (s.dropped i r) := by
  simp only [dropRoot, setRoot, change, bind_iff, modify_iff]
  rfl

theorem mem_of_mem_set_zero {l : List ℕ} {i r : ℕ} (h : r ∈ l.set i 0) (hne : r ≠ 0) : r ∈ l :=
  (mem_or_eq_of_mem_set h).resolve_right hne

/-- Taking an entry out leaves the others as they were. -/
theorem nodup_set_zero (h : (l.filter (· ≠ 0)).Nodup) (i : ℕ) :
    ((l.set i 0).filter (· ≠ 0)).Nodup := by
  refine h.sublist ?_
  induction l generalizing i with
  | nil => simp
  | cons a l ih =>
    have hl : (l.filter (· ≠ 0)).Nodup := h.sublist ((sublist_cons_self a l).filter _)
    cases i with
    | zero => simpa using ((sublist_cons_self a l).filter (· ≠ 0))
    | succ i =>
      rw [set_cons_succ, filter_cons, filter_cons]
      split
      · exact (ih hl i).cons_cons a
      · exact ih hl i

theorem not_mem_set_zero (h : (l.filter (· ≠ 0)).Nodup) {i : ℕ} (hi : i < l.length) (hne : l[i] ≠ 0)
    : l[i] ∉ l.set i 0 := by
  induction l generalizing i with
  | nil => exact absurd hi (not_lt_zero _)
  | cons a l ih =>
    rw [filter_cons] at h
    cases i with
    | zero =>
      have ha : a ≠ 0 := hne
      rw [if_pos (by simpa using ha), nodup_cons] at h
      intro hmem
      rcases mem_cons.mp hmem with h₀ | h₁
      · exact ha h₀
      · exact h.1 (mem_filter.mpr ⟨h₁, by simpa using ha⟩)
    | succ i =>
      have hi' : i < l.length := lt_of_succ_lt_succ hi
      have hne' : l[i] ≠ 0 := hne
      intro hmem
      rcases mem_cons.mp hmem with h₀ | h₁
      · have h₀' : l[i] = a := h₀
        rw [if_pos (by simpa [← h₀'] using hne'), nodup_cons] at h
        exact h.1 (mem_filter.mpr ⟨h₀' ▸ getElem_mem hi', by simpa [← h₀'] using hne'⟩)
      · have hl : (l.filter (· ≠ 0)).Nodup := by
          split at h
          · exact (nodup_cons.mp h).2
          · exact h
        exact ih hl hi' hne' h₁

namespace Roots

variable {orig : List ℕ} {i : ℕ}

section

variable (hR : Roots orig i s)
include hR

theorem item : s.roots.item i = orig.getD i 0 := by
  have h := congrArg (fun l : List ℕ => l.getD 0 0) hR.left
  simpa [Items.item, getD_eq_getElem?_getD] using h

theorem of_eq (hlive : s'.live = s.live) (hbuffered : s'.buffered = s.buffered)
    (hroots : s'.roots = s.roots) : Roots orig i s' := by
  obtain ⟨h₁, h₂, h₃, h₄, h₅, h₆⟩ := hR
  constructor
  · rwa [hroots]
  · rwa [hroots]
  · rwa [hroots]
  · rwa [hlive, hbuffered, hroots]
  · rwa [hroots]
  · rwa [hroots, hbuffered]

theorem next : Roots orig (i + 1) s := { hR with left := by rw [← drop_drop, ← drop_drop, hR.left] }

theorem keep {s' : State} (h : Still s s') : Roots orig (i + 1) s' :=
  hR.next.of_eq h.toCalm.live h.buffered h.roots

theorem drop (hi : i < orig.length) :
    Roots orig (i + 1) (s.dropped i (s.roots.item i)) := by
  have hroots : (s.dropped i (s.roots.item i)).roots.items = s.roots.items.set i 0 := rfl
  have hlen : i < s.roots.items.length := hR.length ▸ hi
  constructor
  · rw [hroots, length_set, hR.length]
  · rw [hroots, drop_set_of_lt (lt_succ_self i), succ_eq_add_one, ← drop_drop, ← drop_drop, hR.left]
  · rw [hroots]
    intro r hr hne
    rcases mem_or_eq_of_mem_set hr with h | h
    · exact hR.sub r h hne
    · exact absurd h hne
  · intro x hx hb
    have hne : x ≠ s.roots.item i := by
      rintro rfl
      simp [State.dropped] at hb
    have hb' : s.buffered x := by
      rw [State.dropped, State.buffered_unbuffered, if_neg hne] at hb
      exact hb
    obtain ⟨j, hj, hjx⟩ := mem_iff_getElem.mp (hR.buffered x hx hb')
    rw [hroots]
    refine mem_iff_getElem.mpr ⟨j, by simpa using hj, ?_⟩
    have hji : i ≠ j := by
      rintro rfl
      refine hne ?_
      rw [Items.item, getD_of_lt hj, hjx]
    rw [getElem_set_of_ne hji, hjx]
  · rw [hroots]
    exact nodup_set_zero hR.nodup i
  · rw [hroots]
    intro r hr hr0
    have hne : r ≠ s.roots.item i := by
      rintro rfl
      rw [Items.item, getD_of_lt hlen] at hr hr0
      exact not_mem_set_zero hR.nodup hlen hr0 hr
    rw [State.dropped, State.buffered_unbuffered, if_neg hne]
    exact hR.flagged r (mem_of_mem_set_zero hr hr0) hr0

end

end Roots

theorem State.object_dropped {i x : ℕ} (hr : s.graph.part r) (hx : ¬s.graph.part x) :
    (s.dropped i r).object x = s.object x := by
  rw [State.dropped, State.unbuffered, State.object_update, if_neg]
  rintro rfl
  exact hx hr

/-- The candidates among the first `i` entries of `l`. -/
def Seen (G : Graph) (l : List ℕ) (i r : ℕ) : Prop := r ∈ l.take i ∧ r ≠ 0 ∧ G.part r

theorem Marking.mono (hM : Marking blockOf G count K D T todo s) {K' D' : ℕ → Prop}
    (hK : ∀ r, K r → K' r) (hD : ∀ r, D' r → D r) : Marking blockOf G count K' D' T todo s := by
  obtain ⟨h₁, h₂, h₃, h₄, h₅, h₆, h₇, h₈, h₉, h₁₀⟩ := hM
  refine ⟨h₁, h₂, h₃, h₄, h₅, h₆, h₇, h₈, fun x hx hg => ?_, fun x hx => h₁₀ x (hD x hx)⟩
  obtain ⟨r, hr, h⟩ := h₉ x hx hg
  exact ⟨r, hK r hr, h⟩

/-- The mark phase at entry `i` of the buffer. -/
structure MarkLoop (blockOf : ℕ → ℕ) (G : Graph) (count : ℕ → ℕ) (s₀ : State) (i : ℕ) (s : State) :
    Prop where
  roots : Roots s₀.roots.items i s
  stack : s.stack.items = []
  mode : s.mode = .idle
  calm : Calm s₀ s
  marking : ∃ T, Marking blockOf G count (Seen G s.roots.items i) (Seen G s₀.roots.items i) T [] s

/-- **The mark phase**: afterwards the objects that some candidate reaches are gray, and each of them
is reached from a candidate that is still in the buffer. -/
theorem markRoots_spec (hW : Walkable blockOf G count)
    (hlive : ∀ r ∈ s₀.roots.items, r ≠ 0 → r ∈ G.live) (hfuel : G.parts.card < fuel)
    (h : MarkLoop blockOf G count s₀ 0 s) :
    Ensures E (eachRoot (fun i r => do
        if (← color r) ≠ .gray then mark (cycleTrace blockOf build release) fuel r
        else dropRoot i r) s₀.roots.items.length 0)
      (fun _ s' => MarkLoop blockOf G count s₀ s₀.roots.items.length s') s := by
  refine eachRoot_spec (I := MarkLoop blockOf G count s₀) ?_ ?_ s₀.roots.items.length (zero_add _) h
  · rintro i s hi ⟨hR, hs, hm, hc, T, hM⟩ hskip
    have hiR : i < s.roots.items.length := hR.length ▸ hi
    refine ⟨hR.keep (.refl s), hs, hm, hc, T, hM.mono (fun r hr => ?_) fun r hr => ?_⟩
    · exact ⟨(mem_take_succ hiR).mpr (Or.inl hr.1), hr.2⟩
    · refine ⟨((mem_take_succ hi).mp hr.1).resolve_right ?_, hr.2⟩
      rintro rfl
      rw [← hR.item, hM.graph] at *
      exact hskip hr.2
  · rintro i s hi ⟨hR, hs, hm, hc, T, hM⟩ hne hp
    have hiR : i < s.roots.items.length := hR.length ▸ hi
    have hmem : s.roots.item i ∈ s.roots.items := by
      rw [Items.item, getD_of_lt hiR]
      exact getElem_mem hiR
    have hparts : s.roots.item i ∈ G.parts :=
      G.mem_parts.mpr ⟨hlive _ (hR.sub _ hmem hne) hne, hM.graph ▸ hp⟩
    have hseen : ∀ {r}, Seen G s₀.roots.items (i + 1) r →
        Seen G s₀.roots.items i r ∨ r = s.roots.item i := by
      rintro r ⟨hr, hr'⟩
      rcases (mem_take_succ hi).mp hr with h | h
      · exact Or.inl ⟨h, hr'⟩
      · exact Or.inr (h.trans (hR.item).symm)
    rw [bind_iff, ensures_color, ite_iff]
    constructor
    · -- the candidate stays in the buffer
      intro hpale
      refine (mark_spec hW hM hs hm hparts hpale hfuel).mono fun _ s' ⟨⟨T', hM'⟩, hs', hm', hst⟩ => ?_
      refine ⟨hR.keep hst, hs', hm', hc.trans hst.toCalm, T', hM'.mono ?_ fun r hr => hseen hr⟩
      rintro r (hr | rfl)
      · rw [hst.roots]
        exact ⟨(mem_take_succ hiR).mpr (Or.inl hr.1), hr.2⟩
      · rw [hst.roots]
        exact ⟨(mem_take_succ hiR).mpr (Or.inr rfl), hne, hM.graph ▸ hp⟩
    · -- another candidate reached it: its place in the buffer goes
      intro hgray
      have hgray := not_not.mp hgray
      rw [ensures_dropRoot]
      have hcolor : (s.dropped i (s.roots.item i)).colorOf = s.colorOf :=
        funext fun _ => State.color_unbuffered
      have htake : (s.dropped i (s.roots.item i)).roots.items.take i = s.roots.items.take i :=
        take_set_of_le (le_refl i)
      refine ⟨hR.drop hi, hs, hm, hc.trans ⟨State.graph_unbuffered,
        fun _ hx => State.object_dropped hp hx, rfl, rfl, rfl, rfl, rfl, rfl, rfl⟩,
        T, ?_⟩
      have hM' : Marking blockOf G count (Seen G s.roots.items i) (Seen G s₀.roots.items i) T []
          (s.dropped i (s.roots.item i)) := hM.of_eq State.graph_unbuffered
        (funext fun _ => State.count_unbuffered) hcolor rfl
      obtain ⟨h₁, h₂, h₃, h₄, h₅, h₆, h₇, h₈, h₉, h₁₀⟩ := hM'
      refine ⟨h₁, h₂, h₃, h₄, h₅, h₆, h₇, h₈, fun x hx hg => ?_, fun x hx => ?_⟩
      · obtain ⟨r, hr, h⟩ := h₉ x hx hg
        refine ⟨r, ⟨?_, hr.2⟩, h⟩
        exact take_subset_take_left _ (le_succ i) (htake ▸ hr.1)
      · rcases hseen hx with h | rfl
        · exact h₁₀ x h
        · rw [hcolor, hgray]

end Mark

end Cycle

end HdLang
