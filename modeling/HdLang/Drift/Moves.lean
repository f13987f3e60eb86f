import HdLang.Drift.Model
import HdLang.Lib.StableSort
import Mathlib.Data.List.Chain

/-!
# Moving elements

What a read, a write and a comparison do at a place of the list's room, and the parts of the sort
that move elements within it: the insertion sort, the reversal and the search for a natural run.
`Keeps` says of two lists that the second has the elements of the first, whatever the comparison
answers, and that what compares equal has kept its order if the comparison is consistent; `Sorts`
that the second list is then sorted too.
-/

namespace HdLang.Drift

open StableSort Ensures List

variable {α σ : Type}

/-- The comparison answers as `ord`, which is a strict weak order. -/
structure Consistent (by_ : By α σ) (ord : α → α → Ordering) : Prop where
  answers : ∀ a b e, (by_ a b e).1 = ord a b
  trans : Std.TransCmp ord

/-- The elements are the same, and ties in the same order if the comparison is consistent. -/
structure Keeps (by_ : By α σ) (ord : α → α → Ordering) (m m' : List α) : Prop where
  perm : m'.Perm m
  ties : Consistent by_ ord → SameTies ord m m'

/-- The elements are the same, and sorted stably if the comparison is consistent. -/
structure Sorts (by_ : By α σ) (ord : α → α → Ordering) (m m' : List α) : Prop
    extends Keeps by_ ord m m' where
  sorted : Consistent by_ ord → InOrder ord m'

/-- A part of a sort must not have a fault. -/
abbrev Never : Fault → Prop := fun _ => False

variable {by_ : By α σ} {ord : α → α → Ordering} {I S : List (Option α)} {C : List (Option ℕ)}
  {e : σ}
  {a b m m' : List α} {i : ℕ}

namespace Keeps

theorem refl (m : List α) : Keeps by_ ord m m := ⟨List.Perm.refl m, fun _ => SameTies.refl m⟩

theorem trans {m'' : List α} (h : Keeps by_ ord m m') (h' : Keeps by_ ord m' m'') :
    Keeps by_ ord m m'' :=
  ⟨h'.perm.trans h.perm, fun hc => (h.ties hc).trans (h'.ties hc)⟩

theorem append {n n' : List α} (h : Keeps by_ ord m m') (h' : Keeps by_ ord n n') :
    Keeps by_ ord (m ++ n) (m' ++ n') :=
  ⟨h.perm.append h'.perm, fun hc => (h.ties hc).append (h'.ties hc)⟩

theorem length_eq (h : Keeps by_ ord m m') : m'.length = m.length := h.perm.length_eq

end Keeps

theorem Sorts.of_keeps {m'' : List α} (h : Keeps by_ ord m m') (h' : Sorts by_ ord m' m'') :
    Sorts by_ ord m m'' :=
  ⟨h.trans h'.toKeeps, h'.sorted⟩

/-! ### Places -/

theorem getElem?_split {β : Type} {P T : List β} {x : β} (hi : P.length = i) :
    (P ++ x :: T)[i]? = some x := by
  subst hi
  simp

theorem set_split {β : Type} {P T : List β} {x y : β} (hi : P.length = i) :
    (P ++ x :: T).set i y = P ++ y :: T := by
  subst hi
  simp

variable {Q : PUnit → Rooms α σ → Prop}

section Places

variable {P T : List (Option α)} {x : α}

theorem ensures_look {Q : α → Rooms α σ → Prop} (hi : I[i]? = some (some x)) (hQ : Q x ⟨I, S, C, e⟩)
    : Ensures Never (look i) Q ⟨I, S, C, e⟩ := by
  simp only [look, bind_iff, get_iff, hi, pure_iff]
  exact hQ

theorem ensures_take {Q : α → Rooms α σ → Prop} (hI : I = P ++ some x :: T) (hi : P.length = i)
    (hQ : Q x ⟨P ++ none :: T, S, C, e⟩) : Ensures Never (take i) Q ⟨I, S, C, e⟩ := by
  subst hI
  simp only [take, bind_iff, get_iff, getElem?_split hi, modify_iff, set_split hi, pure_iff]
  exact hQ

theorem ensures_put (hI : I = P ++ none :: T) (hi : P.length = i)
    (hQ : Q ⟨⟩ ⟨P ++ some x :: T, S, C, e⟩) : Ensures Never (put i x) Q ⟨I, S, C, e⟩ := by
  subst hI
  simp only [put, bind_iff, get_iff, getElem?_split hi, modify_iff, set_split hi]
  exact hQ

theorem ensures_takeScratch {Q : α → Rooms α σ → Prop} (hS : S = P ++ some x :: T)
    (hi : P.length = i) (hQ : Q x ⟨I, P ++ none :: T, C, e⟩) :
    Ensures Never (takeScratch i) Q ⟨I, S, C, e⟩ := by
  subst hS
  simp only [takeScratch, bind_iff, get_iff, getElem?_split hi, modify_iff, set_split hi, pure_iff]
  exact hQ

theorem ensures_putScratch (hS : S = P ++ none :: T) (hi : P.length = i)
    (hQ : Q ⟨⟩ ⟨I, P ++ some x :: T, C, e⟩) :
    Ensures Never (putScratch i x) Q ⟨I, S, C, e⟩ := by
  subst hS
  simp only [putScratch, bind_iff, get_iff, getElem?_split hi, modify_iff, set_split hi]
  exact hQ

theorem ensures_classAt {Q : ℕ → Rooms α σ → Prop} {c : ℕ} (hi : C[i]? = some (some c))
    (hQ : Q c ⟨I, S, C, e⟩) : Ensures Never (classAt i) Q ⟨I, S, C, e⟩ := by
  simp only [classAt, bind_iff, get_iff, hi, pure_iff]
  exact hQ

theorem ensures_putClass {c : ℕ} {P T : List (Option ℕ)} {o : Option ℕ} (hC : C = P ++ o :: T)
    (hi : P.length = i) (hQ : Q ⟨⟩ ⟨I, S, P ++ some c :: T, e⟩)
    : Ensures Never (putClass i c) Q ⟨I, S, C, e⟩ := by
  subst hC
  have hlt : i < (P ++ o :: T).length := by simp [← hi]
  simp only [putClass, bind_iff, get_iff, hlt, if_pos, modify_iff, set_split hi]
  exact hQ

end Places

variable {left right : ℕ}

variable (ord) in
theorem ensures_compareAt {x y : α} {Q : Ordering → Rooms α σ → Prop}
    (hx : I[left]? = some (some x)) (hy : I[right]? = some (some y))
    (hQ : ∀ o e', (Consistent by_ ord → o = ord x y) → Q o ⟨I, S, C, e'⟩) :
    Ensures Never (compareAt by_ left right) Q ⟨I, S, C, e⟩ := by
  unfold compareAt
  rw [bind_iff]
  refine ensures_look hx ?_
  rw [bind_iff]
  refine ensures_look hy ?_
  simp only [compare, bind_iff, get_iff, modify_iff, pure_iff]
  exact hQ _ _ fun hc => hc.answers x y e

variable (ord) in
theorem ensures_driftLess {x y : α} {Q : Bool → Rooms α σ → Prop} (hx : I[left]? = some (some x))
    (hy : I[right]? = some (some y))
    (hQ : ∀ less e', (Consistent by_ ord → (less = true ↔ ord x y = .lt)) → Q less ⟨I, S, C, e'⟩) :
    Ensures Never (driftLess by_ left right) Q ⟨I, S, C, e⟩ := by
  unfold driftLess
  rw [bind_iff]
  refine ensures_compareAt ord hx hy fun o e' ho => ?_
  rw [pure_iff]
  refine hQ _ e' fun hc => ?_
  rw [ho hc, beq_iff_eq]

/-! ### Insertion sort -/

variable {p : List α} {end_ : ℕ}

section Insertion

variable {start index : ℕ} {x : α} {T : List (Option α)}

variable (ord) in
theorem ensures_findHole {q : List α} {hole : ℕ} {Q : ℕ → Rooms α σ → Prop}
    (hI : I = (a ++ p ++ q).map some ++ some x :: T) (hstart : a.length = start)
    (hindex : (a ++ p ++ q).length = index) (hhole : (a ++ p).length = hole)
    (hq : Consistent by_ ord → ∀ y ∈ q, ord x y = .lt)
    (hQ : ∀ p' q' e', p' ++ q' = p ++ q → (Consistent by_ ord → ∀ y ∈ q', ord x y = .lt) →
      (Consistent by_ ord → ∀ y ∈ p'.getLast?, ord x y ≠ .lt) →
        Q (a ++ p').length ⟨I, S, C, e'⟩) :
    Ensures Never (findHole by_ start index hole) Q ⟨I, S, C, e⟩ := by
  induction p using List.reverseRecOn generalizing q hole e with
  | nil =>
    have hdone : Q hole ⟨I, S, C, e⟩ := by
      rw [← hhole]
      exact hQ [] q e rfl hq fun _ y hy => absurd hy (by simp)
    rw [append_nil] at hhole
    cases hole with
    | zero => exact pure_iff.mpr hdone
    | succ hole =>
      rw [findHole, if_neg (by omega)]
      exact pure_iff.mpr hdone
  | append_singleton p y ih =>
    have hlen : hole = (a ++ p).length + 1 := by
      rw [← hhole, ← append_assoc, length_append, length_singleton]
    subst hlen
    rw [findHole, if_pos (by rw [← hstart, length_append]; omega), bind_iff]
    refine ensures_driftLess ord (x := x) (y := y) ?_ ?_ fun less e' hless => ?_
    · rw [hI]
      exact getElem?_split (by rw [length_map, hindex])
    · rw [hI]
      simp
    · rw [ite_iff]
      refine ⟨fun h => ?_, fun h => pure_iff.mpr ?_⟩
      · refine ih (q := y :: q) ?_ ?_ rfl ?_ ?_
        · rw [hI]
          simp
        · rw [← hindex]
          simp
        · intro hc z hz
          obtain rfl | hz := mem_cons.mp hz
          · exact (hless hc).mp h
          · exact hq hc z hz
        · intro p' q' e'' heq
          refine hQ p' q' e'' (heq.trans ?_)
          simp
      · have hdone := hQ (p ++ [y]) q e' rfl hq fun hc z hz => ?_
        · rwa [← append_assoc, length_append, length_singleton] at hdone
        · have hzy : z = y := by simpa using hz.symm
          rw [hzy]
          exact fun heq => h ((hless hc).mpr heq)

theorem ensures_shift {c : List (Option α)} {q : List α} {hole at_ : ℕ}
    (hI : I = c ++ q.map some ++ none :: T) (hhole : c.length = hole) (hat : hole + q.length = at_)
    (hQ : Q ⟨⟩ ⟨c ++ none :: q.map some ++ T, S, C, e⟩) :
    Ensures Never (shift hole at_) Q ⟨I, S, C, e⟩ := by
  induction q using List.reverseRecOn generalizing T I at_ with
  | nil =>
    have hdone : Q ⟨⟩ ⟨I, S, C, e⟩ := by
      rw [hI]
      simpa using hQ
    cases at_ with
    | zero => exact pure_iff.mpr hdone
    | succ at_ =>
      rw [shift, if_neg (by simp at hat; omega)]
      exact pure_iff.mpr hdone
  | append_singleton q y ih =>
    subst hat
    rw [length_append, length_singleton, ← Nat.add_assoc, shift, if_pos (by omega), bind_iff]
    refine ensures_take (P := c ++ q.map some) (x := y) (T := none :: T) ?_ ?_ ?_
    · rw [hI]
      simp
    · rw [length_append, length_map, hhole]
    · rw [bind_iff]
      refine ensures_put (P := c ++ q.map some ++ [none]) (T := T) ?_ ?_ ?_
      · simp
      · simp [hhole, Nat.add_assoc]
      · refine ih (T := some y :: T) ?_ rfl ?_
        · simp
        · simpa using hQ

variable (ord) in
theorem ensures_insertAt (hI : I = (a ++ p).map some ++ some x :: T) (hstart : a.length = start)
    (hindex : (a ++ p).length = index) (hp : Consistent by_ ord → InOrder ord p)
    (hQ : ∀ p' e', Sorts by_ ord (p ++ [x]) p' → Q ⟨⟩ ⟨(a ++ p').map some ++ T, S, C, e'⟩) :
    Ensures Never (insertAt by_ start index) Q ⟨I, S, C, e⟩ := by
  unfold insertAt
  rw [bind_iff]
  refine ensures_findHole ord (p := p) (q := []) (a := a) (x := x) (T := T) ?_ hstart ?_ hindex
    (fun _ y hy => absurd hy not_mem_nil) fun p' q e' hpq hq hp' => ?_
  · rw [hI, append_nil]
  · rw [append_nil]
    exact hindex
  · rw [append_nil] at hpq
    have hsorts : Sorts by_ ord (p ++ [x]) (p' ++ x :: q) := by
      refine ⟨⟨?_, fun hc => ?_⟩, fun hc => ?_⟩
      · rw [← hpq, append_assoc]
        exact (perm_append_left_iff p').mpr (perm_append_singleton x q).symm
      · have := hc.trans
        rw [← hpq]
        exact sameTies_insert (hq hc)
      · have := hc.trans
        exact inOrder_insert (hpq ▸ hp hc) (hq hc) (hp' hc)
    have hindex' : (a ++ p').length + q.length = index := by
      rw [← hindex, ← hpq, ← length_append, append_assoc]
    rw [ite_iff]
    refine ⟨fun _ => ?_, fun hne => ?_⟩
    · rw [bind_iff]
      refine ensures_take (P := (a ++ p).map some) hI (by rw [length_map, hindex]) ?_
      rw [bind_iff]
      refine ensures_shift (c := (a ++ p').map some) (q := q) (T := T) ?_ ?_ hindex' ?_
      · rw [← hpq]
        simp
      · rw [length_map]
      · refine ensures_put (P := (a ++ p').map some) (T := q.map some ++ T) (by simp) ?_ ?_
        · rw [length_map]
        · simpa using hQ _ e' hsorts
    · -- the element is where it belongs
      have hnil : q = [] := length_eq_zero_iff.mp (by omega)
      rw [hnil, append_nil] at hpq
      rw [pure_iff, hI]
      have hdone := hQ _ e' hsorts
      rw [hnil, hpq] at hdone
      simpa using hdone

variable (ord) in
theorem ensures_insertFrom {n : List α} (hI : I = (a ++ p ++ n).map some ++ T)
    (hstart : a.length = start) (hindex : (a ++ p).length = index) (hend : index + n.length = end_)
    (hp : Consistent by_ ord → InOrder ord p)
    (hQ : ∀ m' e', Sorts by_ ord (p ++ n) m' → Q ⟨⟩ ⟨(a ++ m').map some ++ T, S, C, e'⟩) :
    Ensures Never (insertFrom by_ start end_ index) Q ⟨I, S, C, e⟩ := by
  induction n generalizing p I index e with
  | nil =>
    rw [insertFrom, if_neg (by simp at hend; omega), pure_iff, hI]
    have hdone := hQ p e
    rw [append_nil] at hdone ⊢
    exact hdone ⟨Keeps.refl p, hp⟩
  | cons x n ih =>
    rw [length_cons] at hend
    rw [insertFrom, if_pos (by omega), bind_iff]
    refine ensures_insertAt ord (p := p) (x := x) (T := n.map some ++ T) ?_ hstart hindex hp
      fun p' e' hp' => ?_
    · rw [hI]
      simp
    · have hlen : p'.length = p.length + 1 := by
        rw [hp'.length_eq, length_append, length_singleton]
      refine ih (p := p') ?_ ?_ (by omega) hp'.sorted fun m' e'' hm' => ?_
      · simp
      · rw [← hindex, length_append, length_append, hlen]
        rfl
      · refine hQ m' e'' (Sorts.of_keeps ?_ hm')
        have hkeeps := hp'.toKeeps.append (Keeps.refl n)
        rwa [append_assoc] at hkeeps

variable (ord) in
theorem ensures_driftInsertionSort (hI : I = (a ++ m ++ b).map some) (hstart : a.length = start)
    (hend : start + m.length = end_)
    (hQ : ∀ m' e', Sorts by_ ord m m' → Q ⟨⟩ ⟨(a ++ m' ++ b).map some, S, C, e'⟩) :
    Ensures Never (driftInsertionSort by_ start end_) Q ⟨I, S, C, e⟩ := by
  unfold driftInsertionSort
  cases m with
  | nil =>
    rw [insertFrom, if_neg (by simp at hend; omega), pure_iff, hI]
    exact hQ [] e ⟨Keeps.refl [], fun _ => List.Pairwise.nil⟩
  | cons x m =>
    refine ensures_insertFrom ord (a := a) (p := [x]) (n := m) (T := b.map some) ?_ hstart ?_ ?_
      (fun _ => pairwise_singleton ..) fun m' e' hm' => ?_
    · rw [hI]
      simp
    · rw [← hstart, length_append, length_singleton]
    · rw [← hend, length_cons]
      omega
    · have hdone := hQ m' e' hm'
      rwa [map_append] at hdone

end Insertion

/-! ### Natural runs -/

theorem ensures_driftReverse {T : List (Option α)} (hI : I = (a ++ m).map some ++ T)
    (hleft : a.length = left) (hright : left + m.length = right)
    (hQ : Q ⟨⟩ ⟨(a ++ m.reverse).map some ++ T, S, C, e⟩) :
    Ensures Never (driftReverse left right) Q ⟨I, S, C, e⟩ := by
  induction m using List.bidirectionalRec generalizing I a T left right with
  | nil =>
    rw [driftReverse, if_neg (by simp at hright; omega), pure_iff, hI]
    exact hQ
  | singleton x =>
    rw [driftReverse, if_neg (by simp at hright; omega), pure_iff, hI]
    exact hQ
  | cons_append x m y ih =>
    rw [length_cons, length_append, length_singleton] at hright
    rw [driftReverse, if_pos (by omega), bind_iff]
    refine ensures_take (P := a.map some) (x := x) (T := (m ++ [y]).map some ++ T) ?_ ?_ ?_
    · rw [hI]
      simp
    · rw [length_map, hleft]
    rw [bind_iff]
    refine ensures_take (P := a.map some ++ none :: m.map some) (x := y) (T := T) ?_ ?_ ?_
    · simp
    · simp
      omega
    rw [bind_iff]
    refine ensures_put (P := a.map some) (x := y) (T := m.map some ++ none :: T) ?_ ?_ ?_
    · simp
    · rw [length_map, hleft]
    rw [bind_iff]
    refine ensures_put (P := (a ++ y :: m).map some) (x := x) (T := T) ?_ ?_ ?_
    · simp
    · simp
      omega
    refine ih (a := a ++ [y]) (T := some x :: T) ?_ ?_ (by omega) ?_
    · simp
    · rw [length_append, hleft, length_singleton]
    · simpa using hQ

/-- Neighbours of a run: each is less than the one before it, or none is. -/
def Step (by_ : By α σ) (ord : α → α → Ordering) (descending : Bool) (x y : α) : Prop :=
  Consistent by_ ord → (ord y x = .lt ↔ descending = true)

variable (ord) in
theorem ensures_runEnd {descending : Bool} {n : List α} {x : α} {size : ℕ}
    {Q : ℕ → Rooms α σ → Prop} (hI : I = (a ++ p ++ x :: n).map some)
    (hend : (a ++ p).length + 1 = end_) (hsize : end_ + n.length = size)
    (hp : (p ++ [x]).IsChain (Step by_ ord descending))
    (hQ : ∀ m m' e', m ++ m' = p ++ x :: n → p.length + 1 ≤ m.length →
      m.IsChain (Step by_ ord descending) → Q (a ++ m).length ⟨I, S, C, e'⟩) :
    Ensures Never (runEnd by_ descending size end_) Q ⟨I, S, C, e⟩ := by
  have hdone : ∀ e', Q end_ ⟨I, S, C, e'⟩ := by
    intro e'
    have h := hQ (p ++ [x]) n e' (by simp) (by simp) hp
    rwa [← append_assoc, length_append, length_singleton, hend] at h
  induction n generalizing p x end_ e with
  | nil =>
    rw [runEnd, if_neg (by simp at hsize; omega)]
    exact pure_iff.mpr (hdone e)
  | cons y n ih =>
    rw [length_cons] at hsize
    rw [runEnd, if_pos (by omega), bind_iff]
    have hsplit : (a ++ p ++ x :: y :: n).map some =
        (a ++ p ++ [x]).map some ++ some y :: n.map some := by simp
    refine ensures_driftLess ord (x := y) (y := x) ?_ ?_ fun less e' hless => ?_
    · rw [hI, hsplit]
      exact getElem?_split (by rw [length_map, length_append, ← hend, length_singleton])
    · rw [hI, ← hend]
      simp
    · rw [ite_iff]
      refine ⟨fun h => ?_, fun _ => pure_iff.mpr (hdone e')⟩
      have hchain : (p ++ [x] ++ [y]).IsChain (Step by_ ord descending) := by
        refine isChain_append.mpr ⟨hp, isChain_singleton y, ?_⟩
        intro u hu v hv hc
        have hux : u = x := by simpa using hu.symm
        have hvy : v = y := by simpa using hv.symm
        rw [hux, hvy, ← hless hc, h]
      refine ih (p := p ++ [x]) (x := y) ?_ ?_ (by omega) hchain ?_ ?_
      · rw [hI]
        simp
      · rw [← hend]
        simp
        omega
      · intro m m' e'' heq hlen
        rw [length_append, length_singleton] at hlen
        exact hQ m m' e'' (heq.trans (by simp)) (by omega)
      · intro e''
        have h := hQ (p ++ [x] ++ [y]) n e'' (by simp) (by simp) hchain
        have hlen : (a ++ (p ++ [x] ++ [y])).length = end_ + 1 := by
          rw [← hend]
          simp
          omega
        rwa [hlen] at h

variable (ord) in
theorem ensures_driftNaturalRun {start size : ℕ} {Q : ℕ × Bool → Rooms α σ → Prop}
    (hI : I = (a ++ m).map some) (hstart : a.length = start) (hsize : start + m.length = size)
    (hm : m ≠ [])
    (hQ : ∀ u v descending e', u ++ v = m → u ≠ [] → u.IsChain (Step by_ ord descending) →
      Q (u.length, descending) ⟨I, S, C, e'⟩) :
    Ensures Never (driftNaturalRun by_ start size) Q ⟨I, S, C, e⟩ := by
  unfold driftNaturalRun
  match m with
  | [] => exact absurd rfl hm
  | [x] =>
    rw [if_pos (by simp at hsize; omega), pure_iff]
    exact hQ [x] [] false e rfl (cons_ne_nil x []) (isChain_singleton x)
  | x :: y :: rest =>
    rw [length_cons, length_cons] at hsize
    rw [if_neg (by omega), bind_iff]
    refine ensures_driftLess ord (x := y) (y := x) ?_ ?_ fun descending e' hless => ?_
    · rw [hI, ← hstart]
      simp
    · rw [hI, ← hstart]
      simp
    · rw [bind_iff]
      refine ensures_runEnd ord (a := a) (p := [x]) (x := y) (n := rest) ?_ ?_ (by omega) ?_
        fun u v e'' heq hlen hchain => ?_
      · rw [hI]
        simp
      · rw [← hstart]
        simp
      · refine isChain_pair.mpr fun hc => ?_
        exact (hless hc).symm
      · rw [pure_iff]
        have hu : u ≠ [] := by
          rintro rfl
          simp at hlen
        have hdone := hQ u v descending e'' heq hu hchain
        rw [length_append, hstart, Nat.add_sub_cancel_left]
        exact hdone

/-- A descending run, reversed, is sorted; an ascending one is. -/
theorem sorts_run {descending : Bool} (h : m.IsChain (Step by_ ord descending)) :
    Sorts by_ ord m (if descending then m.reverse else m) := by
  cases descending with
  | true =>
    have hchain : Consistent by_ ord → m.IsChain fun x y => ord y x = .lt := fun hc =>
      h.imp fun x y hxy => (hxy hc).mpr rfl
    refine ⟨⟨reverse_perm m, fun hc => ?_⟩, fun hc => ?_⟩
    · have := hc.trans
      exact sameTies_reverse (hchain hc)
    · have := hc.trans
      exact inOrder_reverse (hchain hc)
  | false =>
    refine ⟨Keeps.refl m, fun hc => ?_⟩
    have := hc.trans
    refine isLE_of_chain (h.imp fun x y hxy => isLE_of_ne_lt fun hlt => ?_)
    exact Bool.false_ne_true ((hxy hc).mp hlt)

end HdLang.Drift
