import Mathlib.Algebra.Order.BigOperators.Group.Finset

/-!
# Graphs

Closures, reference counts and trails in graphs.
-/

/-!
## Sets closed under a relation

`Reached init next` is the least set that holds `init` and is closed under `next`. A walk that
visits only what is reached, starts from all of `init` and leaves no successor out has visited
exactly this set (`Reached.eq_of_walk`), whatever its order. `Reached.until_bad` is for a walk that
does not go past some of the nodes.
-/

section

universe u

namespace Closure

variable {α : Type u} {init init' : α → Prop} {next next' : α → α → Prop} {x y : α}

/-- The least set with `init` that is closed under `next`. -/
inductive Reached (init : α → Prop) (next : α → α → Prop) : α → Prop
  | start {x : α} (hx : init x) : Reached init next x
  | step {x y : α} (hx : Reached init next x) (hy : next x y) : Reached init next y

namespace Reached

theorem least {S : α → Prop} (hx : Reached init next x) (hinit : ∀ x, init x → S x)
    (hnext : ∀ x y, S x → next x y → S y) : S x := by
  induction hx with
  | start hx => exact hinit _ hx
  | step _ hy ih => exact hnext _ _ ih hy

theorem mono (hx : Reached init next x) (hinit : ∀ x, init x → Reached init' next' x)
    (hnext : ∀ x y, Reached init next x → Reached init' next' x → next x y → next' x y) :
    Reached init' next' x := by
  induction hx with
  | start hx => exact hinit _ hx
  | step hx hy ih => exact ih.step (hnext _ _ hx ih hy)

/-- Relations that agree on what is reached reach the same. -/
theorem congr (hinit : ∀ x, init x ↔ init' x)
    (hnext : ∀ x, Reached init next x → Reached init' next' x → ∀ y, next x y ↔ next' x y) :
    Reached init next x ↔ Reached init' next' x := by
  constructor
  · intro hx
    exact hx.mono (fun x h => start ((hinit x).mp h)) fun x y hx hx' h => (hnext x hx hx' y).mp h
  · intro hx
    exact hx.mono (fun x h => start ((hinit x).mpr h)) fun x y hx' hx h =>
      (hnext x hx hx' y).mpr h

/-- **A finished walk** has visited exactly what is reached. -/
theorem eq_of_walk {S : α → Prop} (hsound : ∀ x, S x → Reached init next x)
    (hinit : ∀ x, init x → S x) (hclosed : ∀ x y, S x → next x y → S y) :
    S x ↔ Reached init next x :=
  ⟨hsound x, fun hx => hx.least hinit hclosed⟩

/-- On the way to a reached node stands a first one that is bad, or none is. -/
theorem until_bad (bad : α → Prop) (hx : Reached init next x) :
    Reached init (fun x y => ¬bad x ∧ next x y) x ∨
      ∃ b, bad b ∧ Reached init (fun x y => ¬bad x ∧ next x y) b := by
  induction hx with
  | start hx => exact Or.inl (start hx)
  | @step x y _ hy ih =>
    obtain h | h := ih
    · by_cases hbad : bad x
      · exact Or.inr ⟨x, hbad, h⟩
      · exact Or.inl (h.step ⟨hbad, hy⟩)
    · exact Or.inr h

end Reached

end Closure

end

/-!
## Counting references in a graph

The nodes of a graph are the objects of a heap and `succ y` lists the targets of the references
that `y` holds, one entry a reference. `held succ T x` counts the references to `x` from the nodes
of `T`: what a reference count of `x` is made of. The lemmas say how it changes with `T`, and that a
node all of whose references come from a part of the graph has no referrer elsewhere.
-/

section

universe u

namespace RefGraph

section Reach

variable {V : Type u} {succ : V → List V} {x y : V}

/-- `x` is reached from `y` along references. -/
def Reach (succ : V → List V) : V → V → Prop := Relation.ReflTransGen fun y x => x ∈ succ y

theorem Reach.closed {S : V → Prop} (h : Reach succ y x) (hstep : ∀ a b, S a → b ∈ succ a → S b)
    (hy : S y) : S x := by
  induction h with
  | refl => exact hy
  | tail _ hb ih => exact hstep _ _ ih hb

end Reach

section Held

variable {V : Type u} [DecidableEq V] {succ : V → List V} {T U : Finset V} {x y : V}

/-- How many references to `x` the nodes of `T` hold. -/
def held (succ : V → List V) (T : Finset V) (x : V) : ℕ := ∑ y ∈ T, (succ y).count x

@[simp] theorem held_empty : held succ ∅ x = 0 := rfl

theorem held_insert (hy : y ∉ T) : held succ (insert y T) x = (succ y).count x + held succ T x :=
  Finset.sum_insert hy

theorem held_erase (hy : y ∈ T) : (succ y).count x + held succ (T.erase y) x = held succ T x :=
  Finset.add_sum_erase T (fun y => (succ y).count x) hy

theorem held_mono (h : T ⊆ U) : held succ T x ≤ held succ U x := Finset.sum_le_sum_of_subset h

theorem held_sdiff (h : T ⊆ U) : held succ (U \ T) x + held succ T x = held succ U x :=
  Finset.sum_sdiff h

theorem count_le_held (hy : y ∈ T) : (succ y).count x ≤ held succ T x :=
  Finset.single_le_sum (f := fun y => (succ y).count x) (fun _ _ => Nat.zero_le _) hy

theorem held_pos (hy : y ∈ T) (hx : x ∈ succ y) : 0 < held succ T x :=
  (List.count_pos_iff.mpr hx).trans_le (count_le_held hy)

theorem held_eq_zero_iff : held succ T x = 0 ↔ ∀ y ∈ T, x ∉ succ y := by
  simp only [held, Finset.sum_eq_zero_iff, List.count_eq_zero]

/-- Leaving out nodes that hold no reference to `x` changes nothing. -/
theorem held_sdiff_of_none (h : ∀ y ∈ U, x ∉ succ y) : held succ (T \ U) x = held succ T x := by
  refine Finset.sum_subset Finset.sdiff_subset fun y hy hnot => List.count_eq_zero.mpr (h y ?_)
  by_contra hyU
  exact hnot (Finset.mem_sdiff.mpr ⟨hy, hyU⟩)

/-- **Every reference to `x` from `U` comes from `T`** when the counts agree. -/
theorem mem_of_held_eq (h : T ⊆ U) (heq : held succ T x = held succ U x) (hy : y ∈ U)
    (hx : x ∈ succ y) : y ∈ T := by
  by_contra hnot
  have hpos := held_pos (T := U \ T) (Finset.mem_sdiff.mpr ⟨hy, hnot⟩) hx
  have hadd : held succ (U \ T) x + held succ T x = held succ U x := held_sdiff h
  omega

/-- A node with more references from `U` than from `T` has a referrer that `T` leaves out. -/
theorem exists_of_held_lt (h : T ⊆ U) (hlt : held succ T x < held succ U x) :
    ∃ y ∈ U, y ∉ T ∧ x ∈ succ y := by
  by_contra hnone
  push Not at hnone
  have hzero : held succ (U \ T) x = 0 := held_eq_zero_iff.mpr fun y hy => by
    obtain ⟨hyU, hyT⟩ := Finset.mem_sdiff.mp hy
    exact hnone y hyU hyT
  have hadd : held succ (U \ T) x + held succ T x = held succ U x := held_sdiff h
  omega

end Held

end RefGraph

end

/-!
## Trails of a search

A search goes from a node to nodes beside it, and into a node to what that has inside; it keeps the
nodes it is in, and does not go into one that it is in already. A `Trail` is such a way, with the
list of the nodes it is in at each end. Whatever can be reached has a trail (`exists_trail`): a way
that goes into a node again can go on from the first time.
-/

namespace Trails

variable {N : Type} {near inner : N → N → Prop} {root t u c : N} {S S' : List N}

/-- One step of a search: to a node beside, or into a node that it is not in. -/
inductive Next (near inner : N → N → Prop) : List N × N → List N × N → Prop
  | beside {S : List N} {t c : N} (h : near t c) : Next near inner (S, t) (S, c)
  | into {S : List N} {t c : N} (h : inner t c) (hnew : t ∉ S) : Next near inner (S, t) (t :: S, c)

/-- A way of the search from `t`, in the nodes `S`, to `u`, in the nodes `S'`. -/
def Trail (near inner : N → N → Prop) (S : List N) (t : N) (S' : List N) (u : N) : Prop :=
  Relation.ReflTransGen (Next near inner) (S, t) (S', u)

/-- `u` can be reached from `t`. -/
def Reach (near inner : N → N → Prop) : N → N → Prop :=
  Relation.ReflTransGen fun t c => near t c ∨ inner t c

theorem Trail.refl : Trail near inner S t S t := Relation.ReflTransGen.refl

theorem Trail.beside (h : near t c) (hrest : Trail near inner S c S' u) :
    Trail near inner S t S' u :=
  .head (.beside h) hrest

theorem Trail.into (h : inner t c) (hnew : t ∉ S) (hrest : Trail near inner (t :: S) c S' u) :
    Trail near inner S t S' u :=
  .head (.into h hnew) hrest

theorem Trail.beside_last (hrest : Trail near inner S t S' u) (h : near u c) :
    Trail near inner S t S' c :=
  .tail hrest (.beside h)

theorem Trail.into_last (hrest : Trail near inner S t S' u) (h : inner u c) (hnew : u ∉ S') :
    Trail near inner S t (u :: S') c :=
  .tail hrest (.into h hnew)

section

variable (h : Trail near inner S t S' u)
include h

/-- A trail stays where it is, or goes to a node beside or inside first. -/
theorem Trail.cases_first :
    (S' = S ∧ u = t) ∨ (∃ c, near t c ∧ Trail near inner S c S' u) ∨
      ∃ c, inner t c ∧ t ∉ S ∧ Trail near inner (t :: S) c S' u := by
  rcases Relation.ReflTransGen.cases_head h with heq | ⟨⟨S₁, c⟩, hstep, hrest⟩
  · exact .inl ⟨(congrArg Prod.fst heq).symm, (congrArg Prod.snd heq).symm⟩
  · cases hstep with
    | beside hbeside => exact .inr (.inl ⟨c, hbeside, hrest⟩)
    | into hinto hnew => exact .inr (.inr ⟨c, hinto, hnew, hrest⟩)

theorem Trail.reach : Reach near inner t u := by
  have hgoes : ∀ p, Relation.ReflTransGen (Next near inner) (S, t) p →
      Reach near inner t p.2 := by
    intro p hp
    induction hp with
    | refl => exact .refl
    | tail _ hstep ih =>
      cases hstep with
      | beside hbeside => exact ih.tail (.inl hbeside)
      | into hinto _ => exact ih.tail (.inr hinto)
  exact hgoes (S', u) h

theorem Trail.length_le : S.length ≤ S'.length := by
  have hgoes : ∀ p, Relation.ReflTransGen (Next near inner) (S, t) p → S.length ≤ p.1.length := by
    intro p hp
    induction hp with
    | refl => exact Nat.le_refl _
    | tail _ hstep ih =>
      cases hstep with
      | beside _ => exact ih
      | into _ _ => exact Nat.le_succ_of_le ih
  exact hgoes (S', u) h

end

/-- A search that is in a node came to it before it was in it. -/
theorem Trail.before (h : Trail near inner [] root S u) (ht : t ∈ S) :
    ∃ S₁, Trail near inner [] root S₁ t ∧ t ∉ S₁ := by
  have hgoes : ∀ p, Relation.ReflTransGen (Next near inner) ([], root) p → t ∈ p.1 →
      ∃ S₁, Trail near inner [] root S₁ t ∧ t ∉ S₁ := by
    intro p hp
    induction hp with
    | refl => exact fun hmem => (nomatch hmem)
    | tail hprev hstep ih =>
      intro hmem
      cases hstep with
      | beside _ => exact ih hmem
      | into _ hnew =>
        rcases List.mem_cons.mp hmem with rfl | hmem
        · exact ⟨_, hprev, hnew⟩
        · exact ih hmem
  exact hgoes (S, u) h ht

/-- What can be reached can be reached on a trail. -/
theorem exists_trail (h : Reach near inner root u) : ∃ S, Trail near inner [] root S u := by
  induction h with
  | refl => exact ⟨[], .refl⟩
  | @tail t c _ hstep ih =>
    obtain ⟨S, htrail⟩ := ih
    rcases hstep with hbeside | hinto
    · exact ⟨S, htrail.beside_last hbeside⟩
    · by_cases hmem : t ∈ S
      · obtain ⟨S₁, hfirst, hnew⟩ := htrail.before hmem
        exact ⟨t :: S₁, hfirst.into_last hinto hnew⟩
      · exact ⟨t :: S, htrail.into_last hinto hmem⟩

end Trails
