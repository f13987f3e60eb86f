import HdLang.Drift.Merges

/-!
# The quicksort

A partition first compares each element with the pivot and writes the answers down; then it moves
the elements to the scratch room, the lesser, the equal and the greater ones each to the places
counted for them, and back. The equal ones are where they belong, and the others are sorted in the
same way until they are few or the limit is reached.
-/

namespace HdLang.Drift

open StableSort Ensures List Nat

variable {α σ : Type} {by_ : By α σ} {ord : α → α → Ordering} {I S : List (Option α)}
  {C : List (Option ℕ)} {e : σ} {a b m m' : List α} {A : List Ordering}

/-- The elements for which the answer is `o`. -/
def side (o : Ordering) : List α → List Ordering → List α
  | x :: m, o' :: A => if o' = o then x :: side o m A else side o m A
  | _, _ => []

theorem length_side {o : Ordering} (h : A.length = m.length) :
    (side o m A).length = A.count o := by
  induction m generalizing A with
  | nil =>
    obtain rfl : A = [] := length_eq_zero_iff.mp h
    rfl
  | cons x m ih =>
    cases A with
    | nil => cases h
    | cons o' A =>
      rw [side, count_cons]
      by_cases ho : o' = o
      · rw [if_pos ho, if_pos (beq_iff_eq.mpr ho), length_cons, ih (Nat.succ.inj h)]
      · rw [if_neg ho, if_neg (by rwa [beq_iff_eq]), ih (Nat.succ.inj h), Nat.add_zero]

theorem perm_side (h : A.length = m.length) :
    (side .lt m A ++ side .eq m A ++ side .gt m A).Perm m := by
  induction m generalizing A with
  | nil => rfl
  | cons x m ih =>
    cases A with
    | nil => cases h
    | cons o A =>
      have hm := ih (A := A) (succ.inj h)
      cases o with
      | lt => exact hm.cons x
      | eq =>
        show (side .lt m A ++ x :: side .eq m A ++ side .gt m A).Perm (x :: m)
        rw [append_assoc, cons_append]
        refine perm_middle.trans (List.Perm.cons x ?_)
        rwa [← append_assoc]
      | gt => exact perm_middle.trans (hm.cons x)

theorem side_eq_beside {o : Ordering} (p : α) :
    side o m (m.map fun x => ord x p) = beside ord p o m := by
  induction m with
  | nil => rfl
  | cons x m ih =>
    rw [map_cons, side, beside, filter_cons, ← beside, ih]
    by_cases ho : ord x p = o
    · rw [if_pos ho, if_pos (beq_iff_eq.mpr ho)]
    · rw [if_neg ho, if_neg (by rwa [beq_iff_eq])]

/-- The class that is written down for an answer. -/
def answer (o : Ordering) : Option ℕ := some (classOf o)

variable {x : α} {c d : List (Option ℕ)} {end_ : ℕ}

variable (ord) in
theorem ensures_classify {p : List α} {u : List (Option ℕ)} {pivot index less equal : ℕ}
    {Q : ℕ × ℕ → Rooms α σ → Prop} (hI : I = (p ++ m ++ b).map some) (hC : C = c ++ u ++ d)
    (hp : p.length = index) (hc : c.length = index) (hu : u.length = m.length)
    (hend : index + m.length = end_) (hpivot : I[pivot]? = some (some x))
    (hQ : ∀ A e', A.length = m.length → (Consistent by_ ord → A = m.map fun y => ord y x) →
      Q (less + A.count .lt, equal + A.count .eq) ⟨I, S, c ++ A.map answer ++ d, e'⟩) :
    Ensures Never (classify by_ pivot end_ index less equal) Q ⟨I, S, C, e⟩ := by
  induction m generalizing p c u C index less equal e with
  | nil =>
    obtain rfl : u = [] := length_eq_zero_iff.mp hu
    rw [classify, if_neg (by simp at hend; omega), pure_iff, hC]
    exact hQ [] e rfl fun _ => rfl
  | cons y m ih =>
    cases u with
    | nil => cases hu
    | cons o' u =>
      rw [length_cons] at hend
      rw [classify, if_pos (by omega), bind_iff]
      refine ensures_compareAt ord (x := y) (y := x) ?_ hpivot fun o e' ho => ?_
      · rw [hI, ← hp]
        simp
      rw [bind_iff]
      refine ensures_putClass (P := c) (T := u ++ d) (o := o') ?_ hc ?_
      · rw [hC]
        simp
      refine ih (p := p ++ [y]) (c := c ++ [answer o]) (u := u) ?_ ?_ ?_ ?_ (succ.inj hu) (by omega)
        fun A e'' hlen hos => ?_
      · rw [hI]
        simp
      · simp [answer]
      · rw [length_append, hp, length_singleton]
      · rw [length_append, hc, length_singleton]
      · have hdone := hQ (o :: A) e'' (congrArg succ hlen) fun hcon => ?_
        · rw [map_cons, append_cons] at hdone
          have hless : less + (o :: A).count .lt =
              (less + if o = .lt then 1 else 0) + A.count .lt := by
            rw [count_cons]
            cases o <;> simp; omega
          have hequal : equal + (o :: A).count .eq =
              (equal + if o = .eq then 1 else 0) + A.count .eq := by
            rw [count_cons]
            cases o <;> simp; omega
          rw [hless, hequal] at hdone
          exact hdone
        · rw [ho hcon, hos hcon, map_cons]

/-- The places of a partition: what has come of the lesser, the equal and the greater elements, and
room for those that the answers still hold. -/
def places (A : List Ordering) (l q g : List α) : List (Option α) :=
  l.map some ++ List.replicate (A.count .lt) none ++
    (q.map some ++ List.replicate (A.count .eq) none) ++
      (g.map some ++ List.replicate (A.count .gt) none)

variable {Q : PUnit → Rooms α σ → Prop}

theorem ensures_distribute {l q g : List α} {P B U V : List (Option α)}
    {index lessAt equalAt greaterAt : ℕ} (hI : I = P ++ m.map some ++ B)
    (hS : S = U ++ places A l q g ++ V) (hC : C = c ++ A.map answer ++ d)
    (hlen : A.length = m.length) (hP : P.length = index) (hc : c.length = index)
    (hend : index + m.length = end_) (hless : U.length + l.length = lessAt)
    (hequal : U.length + l.length + A.count .lt + q.length = equalAt)
    (hgreater : U.length + l.length + A.count .lt + q.length + A.count .eq + g.length = greaterAt)
    (hQ : Q ⟨⟩ ⟨P ++ List.replicate m.length none ++ B,
      U ++ (l ++ side .lt m A ++ (q ++ side .eq m A) ++ (g ++ side .gt m A)).map some ++ V, C, e⟩) :
    Ensures Never (distribute end_ index lessAt equalAt greaterAt) Q ⟨I, S, C, e⟩ := by
  induction m generalizing A l q g P c I S C index lessAt equalAt greaterAt with
  | nil =>
    obtain rfl : A = [] := length_eq_zero_iff.mp hlen
    rw [distribute, if_neg (by simp at hend; omega), pure_iff, hI, hS]
    simpa [side, places] using hQ
  | cons x m ih =>
    cases A with
    | nil => cases hlen
    | cons o A =>
      have htake : I = P ++ some x :: (m.map some ++ B) := by
        rw [hI]
        simp
      have hc' : (c ++ [answer o]).length = index + 1 := by
        rw [length_append, hc, length_singleton]
      have hP' : (P ++ [(none : Option α)]).length = index + 1 := by
        rw [length_append, hP, length_singleton]
      have hC' : C = c ++ [answer o] ++ A.map answer ++ d := by
        rw [hC]
        simp
      have hI' : P ++ none :: (m.map some ++ B) = P ++ [none] ++ m.map some ++ B := by simp
      have hrest : P ++ replicate (x :: m).length none ++ B =
          P ++ [none] ++ replicate m.length none ++ B := by
        simp [replicate_succ]
      rw [length_cons] at hend
      rw [distribute, if_pos (by omega), bind_iff]
      refine ensures_classAt (c := classOf o) ?_ ?_
      · rw [hC, append_assoc, map_cons, cons_append]
        exact getElem?_split hc
      cases o with
      | lt =>
        simp only [classOf]
        rw [bind_iff]
        refine ensures_take htake hP ?_
        rw [bind_iff]
        refine ensures_putScratch (P := U ++ l.map some) (T := replicate (A.count .lt) none ++
          (q.map some ++ replicate (A.count .eq) none) ++
            (g.map some ++ replicate (A.count .gt) none) ++ V) ?_ ?_ ?_
        · rw [hS, places]
          simp [replicate_succ]
        · rw [length_append, length_map, hless]
        refine ih (l := l ++ [x]) (q := q) (g := g) (A := A) hI' ?_ hC' (succ.inj hlen) hP' hc'
          (by omega)
          ?_ ?_ ?_ ?_
        · rw [places]
          simp
        · rw [length_append, length_singleton]
          omega
        · rw [← hequal, length_append, length_singleton, count_cons_self]
          omega
        · rw [← hgreater, length_append, length_singleton, count_cons_self,
            count_cons_of_ne (by decide)]
          omega
        · rw [hrest] at hQ
          simpa [side] using hQ
      | eq =>
        simp only [classOf]
        rw [bind_iff]
        refine ensures_take htake hP ?_
        rw [bind_iff]
        refine ensures_putScratch (P := U ++
          (l.map some ++ replicate (A.count .lt) none ++ q.map some))
          (T := replicate (A.count .eq) none ++
            (g.map some ++ replicate (A.count .gt) none) ++ V) ?_ ?_ ?_
        · rw [hS, places]
          simp [replicate_succ]
        · rw [← hequal]
          simp
          omega
        refine ih (l := l) (q := q ++ [x]) (g := g) (A := A) hI' ?_ hC' (succ.inj hlen) hP' hc'
          (by omega)
          hless ?_ ?_ ?_
        · rw [places]
          simp
        · rw [← hequal, length_append, length_singleton, count_cons_of_ne (by decide)]
          omega
        · rw [← hgreater, length_append, length_singleton, count_cons_self,
            count_cons_of_ne (by decide)]
          omega
        · rw [hrest] at hQ
          simpa [side] using hQ
      | gt =>
        simp only [classOf]
        rw [bind_iff]
        refine ensures_take htake hP ?_
        rw [bind_iff]
        refine ensures_putScratch (P := U ++ (l.map some ++ replicate (A.count .lt) none ++
            (q.map some ++ replicate (A.count .eq) none) ++ g.map some))
          (T := replicate (A.count .gt) none ++ V) ?_ ?_ ?_
        · rw [hS, places]
          simp [replicate_succ]
        · rw [← hgreater]
          simp
          omega
        refine ih (l := l) (q := q) (g := g ++ [x]) (A := A) hI' ?_ hC' (succ.inj hlen) hP' hc'
          (by omega)
          hless ?_ ?_ ?_
        · rw [places]
          simp
        · rw [← hequal, count_cons_of_ne (by decide)]
        · rw [← hgreater, length_append, length_singleton, count_cons_of_ne (by decide),
            count_cons_of_ne (by decide)]
          omega
        · rw [hrest] at hQ
          simpa [side] using hQ

theorem exists_pivot (h : 0 < m.length) :
    ∃ x, (a ++ m ++ b)[a.length + m.length / 2]? = some x := by
  have hlt : a.length + m.length / 2 < (a ++ m ++ b).length := by
    rw [length_append, length_append]
    omega
  exact ⟨_, getElem?_eq_getElem hlt⟩

/-- Elements that all compare equal to the pivot are sorted. -/
theorem sorts_of_count_eq (hlen : A.length = m.length)
    (hos : Consistent by_ ord → A = m.map fun y => ord y x) (h : A.count .eq = m.length) :
    Sorts by_ ord m m := by
  refine ⟨Keeps.refl m, fun hc => ?_⟩
  have := hc.trans
  have hall : ∀ y ∈ m, ord y x = .eq := by
    have hcount := count_eq_length.mp (h.trans hlen.symm)
    intro y hy
    refine (hcount _ ?_).symm
    rw [hos hc]
    exact mem_map_of_mem hy
  have horder := inOrder_pivot (l := []) (r := []) (fun _ h => nomatch h) hall
    (fun _ h => nomatch h)
    List.Pairwise.nil List.Pairwise.nil
  rwa [nil_append, append_nil] at horder

theorem sorts_of_sides {l g : List α} (hlen : A.length = m.length)
    (hos : Consistent by_ ord → A = m.map fun y => ord y x) (hl : Sorts by_ ord (side .lt m A) l)
    (hg : Sorts by_ ord (side .gt m A) g) : Sorts by_ ord m (l ++ side .eq m A ++ g) := by
  have hkeeps : Keeps by_ ord (side .lt m A ++ side .eq m A ++ side .gt m A)
      (l ++ side .eq m A ++ g) :=
    (hl.toKeeps.append (Keeps.refl _)).append hg.toKeeps
  have hparts : Keeps by_ ord m (side .lt m A ++ side .eq m A ++ side .gt m A) := by
    refine ⟨perm_side hlen, fun hc => ?_⟩
    have := hc.trans
    rw [hos hc, side_eq_beside, side_eq_beside, side_eq_beside]
    exact sameTies_pivot x m
  refine ⟨hparts.trans hkeeps, fun hc => ?_⟩
  have := hc.trans
  have hside : ∀ {o : Ordering} {y}, y ∈ side o m A → ord y x = o := by
    intro o y hy
    rw [hos hc, side_eq_beside] at hy
    exact of_mem_beside hy
  refine inOrder_pivot (p := x) (fun y hy => ?_) (fun y hy => hside hy) (fun y hy => ?_)
    (hl.sorted hc)
    (hg.sorted hc)
  · exact hside (hl.perm.mem_iff.mp hy)
  · exact hside (hg.perm.mem_iff.mp hy)

variable {start : ℕ}

theorem ensures_partition {X : List α} (hys : X = a ++ m ++ b) (hC : C = c ++ A.map answer ++ d)
    (hc : c.length = start) (hlen : A.length = m.length) (hstart : a.length = start)
    (hend : start + m.length = end_)
    (hQ : Q ⟨⟩ (rooms (a ++ (side .lt m A ++ side .eq m A ++ side .gt m A) ++ b) C e)) :
    Ensures Never (distribute end_ start start (start + A.count .lt)
        (start + A.count .lt + A.count .eq))
      (fun _ s => Ensures Never (copyBack end_ start) Q s) (rooms X C e) := by
  have hperm := perm_side hlen
  have hsides : (side .lt m A ++ side .eq m A ++ side .gt m A).length = m.length := hperm.length_eq
  have hcount : A.count .lt + A.count .eq + A.count .gt = m.length := by
    rw [← hsides, length_append, length_append, length_side hlen, length_side hlen,
      length_side hlen]
  have hsize : X.length = a.length + m.length + b.length := by
    rw [hys, length_append, length_append]
  unfold rooms
  refine ensures_distribute (P := a.map some) (B := b.map some) (l := []) (q := []) (g := [])
    (U := replicate a.length none) (V := replicate b.length none) (c := c) (d := d) (A := A)
    (m := m) ?_ ?_ hC hlen ?_ hc hend ?_ ?_ ?_ ?_
  · rw [hys]
    simp
  · rw [hsize, ← hcount, replicate_add, replicate_add, replicate_add, replicate_add, places]
    simp
  · rw [length_map, hstart]
  · simp [hstart]
  · simp [hstart]
  · simp [hstart]
  refine ensures_copyBack (m := side .lt m A ++ side .eq m A ++ side .gt m A) (P := a.map some)
    (B := b.map some) (U := replicate a.length none) (V := replicate b.length none) ?_ ?_
      ?_ ?_ ?_ ?_
  · rw [hsides]
  · simp
  · rw [length_map, hstart]
  · rw [length_replicate, hstart]
  · rw [hsides, hend]
  unfold rooms at hQ
  have hrep : replicate
      (a ++ (side .lt m A ++ side .eq m A ++ side .gt m A) ++ b).length (none : Option α) =
      replicate a.length none ++
        replicate (side .lt m A ++ side .eq m A ++ side .gt m A).length none ++
          replicate b.length none := by
    rw [length_append, length_append, replicate_add, replicate_add]
  rw [hrep, map_append, map_append] at hQ
  exact hQ

variable (ord) in
theorem ensures_driftQuickSort {xs : List α} {limit : ℕ} (hxs : xs = a ++ m ++ b)
    (hC : C.length = xs.length) (hstart : a.length = start) (hend : start + m.length = end_)
    (hQ : ∀ m' C' e', Sorts by_ ord m m' → C'.length = C.length →
      Q ⟨⟩ (rooms (a ++ m' ++ b) C' e')) :
    Ensures Never (driftQuickSort by_ limit start end_) Q (rooms xs C e) := by
  have hsize : end_ - start = m.length := by omega
  induction limit generalizing a m b xs start end_ C e Q with
  | zero =>
    rw [driftQuickSort, ite_iff]
    refine ⟨fun _ => ?_, fun _ => ?_⟩
    · exact ensures_insertionSort ord hxs hstart hend fun m' e' hm' => hQ m' C e' hm' rfl
    · exact ensures_driftMergeSort ord hxs hC hstart hend hQ
  | succ limit ih =>
    rw [driftQuickSort, ite_iff]
    refine ⟨fun _ => ?_, fun hlarge => ?_⟩
    · exact ensures_insertionSort ord hxs hstart hend fun m' e' hm' => hQ m' C e' hm' rfl
    have hlen : xs.length = a.length + m.length + b.length := by
      rw [hxs, length_append, length_append]
    obtain ⟨x, hx⟩ := exists_pivot (a := a) (m := m) (b := b) (by omega)
    obtain ⟨c, u, d, rfl, hc, hu, hd⟩ := exists_split (hC.trans hlen)
    rw [bind_iff]
    unfold rooms
    refine ensures_classify ord (p := a) (m := m) (b := b) (x := x) (c := c) (u := u) (d := d)
      (by rw [hxs]) rfl hstart (hc.trans hstart) hu hend ?_ fun A e' hos hanswers => ?_
    · rw [getElem?_map, hsize, ← hstart, hxs, hx]
      rfl
    rw [Nat.zero_add, Nat.zero_add, ite_iff]
    have hC' : (c ++ A.map answer ++ d).length = (c ++ u ++ d).length := by
      simp [hos, hu]
    refine ⟨fun hequal => ?_, fun _ => ?_⟩
    · rw [pure_iff]
      have hdone := hQ m (c ++ A.map answer ++ d) e'
        (sorts_of_count_eq hos hanswers (hequal.trans hsize)) hC'
      rw [← hxs] at hdone
      exact hdone
    · simp only [bind_iff]
      have hl : (side .lt m A).length = A.count .lt := length_side hos
      have hq : (side .eq m A).length = A.count .eq := length_side hos
      have hsides : (side .lt m A ++ side .eq m A ++ side .gt m A).length = m.length :=
        (perm_side hos).length_eq
      rw [length_append, length_append, hl, hq] at hsides
      refine ensures_partition (a := a) (m := m) (b := b) (A := A) (X := xs) (d := d) hxs rfl
        (hc.trans hstart) hos hstart hend ?_
      -- the lesser elements
      refine ih (a := a) (m := side .lt m A) (b := side .eq m A ++ side .gt m A ++ b) ?_ ?_ hstart
        ?_
        (fun l C₁ e₁ hsl hC₁ => ?_) ?_
      · simp
      · rw [hC', hC, hlen, ← hsides]
        simp [hl, hq]
        omega
      · rw [hl]
      · have hllen : l.length = A.count .lt := by rw [hsl.length_eq, hl]
        -- the greater elements
        refine ih (a := a ++ l ++ side .eq m A) (m := side .gt m A) (b := b) ?_ ?_ ?_ ?_
          (fun g C₂ e₂ hsg hC₂ => ?_) ?_
        · simp
        · rw [hC₁, hC', hC, hlen, ← hsides]
          simp [hllen, hq]
          omega
        · rw [length_append, length_append, hllen, hq, hstart]
        · omega
        · have hdone := hQ _ C₂ e₂ (sorts_of_sides hos hanswers hsl hsg) (hC₂.trans (hC₁.trans hC'))
          rw [append_assoc a l, append_assoc a]
          exact hdone
        · omega
      · rw [hl]
        omega

variable (ord) in
theorem ensures_driftSortLazyRun {xs : List α} (hxs : xs = a ++ m ++ b) (hC : C.length = xs.length)
    (hstart : a.length = start) (hend : start + m.length = end_)
    (hQ : ∀ m' C' e', Sorts by_ ord m m' → C'.length = C.length →
      Q ⟨⟩ (rooms (a ++ m' ++ b) C' e')) :
    Ensures Never (driftSortLazyRun by_ start end_) Q (rooms xs C e) :=
  ensures_driftQuickSort ord hxs hC hstart hend hQ

end HdLang.Drift
