import HdLang.Lib.StableSort
import Mathlib.Algebra.Group.Nat.Defs
import Mathlib.Data.Finset.Card
import Mathlib.Data.List.FinRange

/-!
# The workspace's slice sort

Up to `SMALL` elements sort in place by insertion. Longer slices sort their positions, bottom-up
with runs of doubling width, and are then permuted in place along the cycles of the positions.

A merge of positions is a merge of the elements at them (`passes_map`), so the result is the merge
sort of the slice itself, which `Runs` carries: every run of a width is sorted, and ties are in the
order of the slice. The permutation keeps, at each turn of a cycle, an injection that says where
each element still to be moved lies (`Turn`).
-/

namespace HdLang.SliceSort

open StableSort List List.Pairwise SameTies Nat

/-! ### The sort -/

section Model

variable {α : Type} {β : Type}

/-- Lengths up to this sort in place by insertion. -/
def SMALL : ℕ := 20

/-- Positions are below this. -/
abbrev U32 : ℕ := 2 ^ 32

/-- `v.swap(i, j)`; `none` is the panic of an index out of range. -/
def swap (v : List α) (i j : ℕ) : Option (List α) := do
  let x ← v[i]?
  let y ← v[j]?
  some ((v.set i y).set j x)

/-- The element at `j` moves down while it is less than the one before it. -/
def sink (less : α → α → Bool) (v : List α) : ℕ → Option (List α)
  | 0 => some v
  | j + 1 => do
    let x ← v[j + 1]?
    let y ← v[j]?
    if less x y then do
      let v ← swap v j (j + 1)
      sink less v j
    else some v

/-- The insertion path: `for i in 1..v.len()`. -/
def insertion (less : α → α → Bool) (v : List α) : Option (List α) :=
  (List.range' 1 (v.length - 1)).foldlM (sink less) v

/-- Two runs side by side: the right one's next is taken when it is less than the left one's. -/
def mergeRuns (less : β → β → Bool) : List β → List β → List β
  | [], right => right
  | a :: left, [] => a :: left
  | a :: left, b :: right =>
    if !less b a then a :: mergeRuns less left (b :: right)
    else b :: mergeRuns less (a :: left) right
termination_by left right => left.length + right.length

/-- One pass: the runs of `width` positions are merged two by two, and every slot of the other
buffer is written. -/
def pass (less : β → β → Bool) (width : ℕ) (src : List β) : List β :=
  if src = [] ∨ width = 0 then []
  else mergeRuns less (src.take width) ((src.drop width).take width) ++
    pass less width (src.drop (2 * width))
termination_by src.length
decreasing_by
  rw [List.length_drop]
  have := List.length_pos_of_ne_nil (l := src) (by tauto)
  omega

/-- `while width < n`: passes over runs of doubling width. The width is at least 1. -/
def passes (less : β → β → Bool) (n width : ℕ) (src : List β) : List β :=
  if width < n ∧ 0 < width then passes less n (2 * width) (pass less width src) else src
termination_by n - width

/-- The positions `0..n` stably sorted by `less`; `none` is the panic of a length that no `u32`
holds. -/
def positions (n : ℕ) (less : Fin n → Fin n → Bool) : Option (List (Fin n)) :=
  if n < U32 then some (passes less n 1 (List.finRange n)) else none

/-- A position as `u32`. -/
def toU32 (at_ : ℕ) : ℕ := if at_ < U32 then at_ else U32 - 1

/-- The loop of `permute` along a cycle, given a number of turns. -/
def cycle (start : ℕ) : ℕ → ℕ → List α → List ℕ → Option (List α × List ℕ)
  | 0, _, _, _ => none
  | turns + 1, at_, v, order => do
    let from_ ← order[at_]?
    let order := order.set at_ (toU32 at_)
    if from_ = start then some (v, order)
    else do
      let v ← swap v at_ from_
      cycle start turns from_ v order

/-- Moves `v[order[i]]` to position `i`. A cycle has no more turns than the slice has elements. -/
def permute (v : List α) (order : List ℕ) : Option (List α × List ℕ) :=
  (List.range' 0 v.length).foldlM
    (fun s start => cycle start (v.length + 1) start s.1 s.2) (v, order)

def sortByLess (less : α → α → Bool) (v : List α) : Option (List α) :=
  if v.length ≤ SMALL then insertion less v
  else do
    let order ← positions v.length fun a b => less (v.get a) (v.get b)
    let (v, _) ← permute v (order.map Fin.val)
    some v

/-- Sorts by the key `f` gives, computing it once per element. -/
def sortStableByCachedKey {K : Type} [LinearOrder K] (f : α → K) (v : List α) :
    Option (List α) :=
  if v.length < 2 then some v
  else do
    let keys := v.map f
    let order ← positions keys.length fun a b => keys.get a < keys.get b
    let (v, _) ← permute v (order.map Fin.val)
    some v

/-- Sorts by the key `f` gives, which it computes at every comparison. -/
def sortStableByKey {K : Type} [LinearOrder K] (f : α → K) (v : List α) : Option (List α) :=
  sortByLess (fun a b => f a < f b) v

end Model

/-! ### Strict weak orders -/

variable {K : Type}

section Order

variable {α : Type} {less : α → α → Bool}

/-- A strict weak order: elements neither of which is less than the other are alike. -/
structure StrictWeak (less : α → α → Bool) : Prop where
  irrefl : ∀ a, less a a = false
  trans : ∀ a b c, less a b = true → less b c = true → less a c = true
  alike : ∀ a b c, less a b = false → less b a = false → less b c = false → less c b = false →
    less a c = false

/-- The comparison of an order. -/
def cmpOf (less : α → α → Bool) (a b : α) : Ordering :=
  if less a b then .lt else if less b a then .gt else .eq

theorem cmpOf_eq_lt {a b : α} : cmpOf less a b = .lt ↔ less a b = true := by
  unfold cmpOf
  split
  · next h => exact iff_of_true rfl h
  · next h =>
    split
    · exact iff_of_false (by simp) h
    · exact iff_of_false (by simp) h

variable {a b : α}

section

variable (h : StrictWeak less)
include h

theorem StrictWeak.asymm (hab : less a b = true) :
    less b a = false := by
  by_contra hba
  have haa := h.trans a b a hab (by simpa using hba)
  rw [h.irrefl a] at haa
  cases haa

theorem StrictWeak.isLE_iff :
    (cmpOf less a b).isLE = true ↔ less b a = false := by
  unfold cmpOf
  split
  · next hab => exact iff_of_true rfl (h.asymm hab)
  · split
    · next hba => exact iff_of_false (by decide) (by simp [hba])
    · next hba => exact iff_of_true rfl (by simpa using hba)

/-- What is not less stays not less along a chain. -/
theorem StrictWeak.not_trans {c : α} (hba : less b a = false) (hcb : less c b = false)
    : less c a = false := by
  by_contra hca
  have hca : less c a = true := by simpa using hca
  have hab : less a b = false := by
    by_contra hab
    rw [h.trans c a b hca (by simpa using hab)] at hcb
    cases hcb
  have hbc : less b c = false := by
    by_contra hbc
    rw [h.trans b c a (by simpa using hbc) hca] at hba
    cases hba
  rw [h.alike c b a hcb hbc hba hab] at hca
  cases hca

theorem StrictWeak.transCmp : Std.TransCmp (cmpOf less) where
  eq_swap := by
    intro a b
    unfold cmpOf
    cases hab : less a b with
    | true => rw [h.asymm hab]; rfl
    | false => cases less b a <;> rfl
  isLE_trans := by
    intro a b c hab hbc
    rw [h.isLE_iff] at hab hbc ⊢
    exact h.not_trans hab hbc

end

theorem strictWeak_key [LinearOrder K] (f : α → K) :
    StrictWeak fun a b : α => decide (f a < f b) where
  irrefl a := by simp
  trans a b c hab hbc := by
    simp only [decide_eq_true_eq] at *
    exact hab.trans hbc
  alike a b c hab _ hbc _ := by
    simp only [decide_eq_false_iff_not, not_lt] at *
    exact hbc.trans hab

/-- `w` is `v` sorted: its elements in order, those that compare equal in the order of `v`. -/
structure Sorts (cmp : α → α → Ordering) (v w : List α) : Prop where
  perm : w.Perm v
  inOrder : InOrder cmp w
  ties : SameTies cmp v w

end Order

/-! ### Loops over indices -/

/-- What each turn of a loop over indices keeps holds after it. -/
theorem foldlM_range' {σ : Type} {f : σ → ℕ → Option σ} (P : ℕ → σ → Prop) (n a : ℕ) {s : σ}
    (hstep : ∀ k s, a ≤ k → k < a + n → P k s → ∃ s', f s k = some s' ∧ P (k + 1) s') (hs : P a s)
    : ∃ s', (List.range' a n).foldlM f s = some s' ∧ P (a + n) s' := by
  induction n generalizing a s with
  | zero => exact ⟨s, rfl, hs⟩
  | succ n ih =>
    obtain ⟨s₁, hs₁, hP⟩ := hstep a s le_rfl (by omega) hs
    obtain ⟨s', hs', hP'⟩ := ih (a + 1) (fun k s hk hlt => hstep k s (by omega) (by omega)) hP
    rw [range'_succ, foldlM_cons, hs₁]
    exact ⟨s', hs', by rwa [Nat.add_right_comm, Nat.add_assoc] at hP'⟩

/-! ### Insertion -/

section Insertion

variable {α : Type} {less : α → α → Bool}

theorem swap_neighbours (l back : List α) (x y : α) :
    swap (l ++ y :: x :: back) l.length (l.length + 1) = some (l ++ x :: y :: back) := by
  have hy : (l ++ y :: x :: back)[l.length]? = some y := by simp
  have hx : (l ++ y :: x :: back)[l.length + 1]? = some x := by simp
  rw [swap, hy, hx]
  simp

variable (less) in
/-- The element moves in front of the greater ones at the end of what is before it. -/
theorem sink_eq (l : List α) (x : α) (back : List α) :
    ∃ l₁ m, l = l₁ ++ m ∧ (∀ y ∈ m, less x y = true) ∧ (∀ y ∈ l₁.getLast?, less x y = false) ∧
      sink less (l ++ x :: back) l.length = some (l₁ ++ x :: (m ++ back)) := by
  induction l using reverseRecOn generalizing back with
  | nil => exact ⟨[], [], rfl, by simp, by simp, rfl⟩
  | append_singleton l y ih =>
    have hlist : l ++ [y] ++ x :: back = l ++ y :: x :: back := by simp
    have hy : (l ++ y :: x :: back)[l.length]? = some y := by simp
    have hx : (l ++ y :: x :: back)[l.length + 1]? = some x := by simp
    rw [hlist, length_append, length_singleton, sink, hx, hy]
    cases hxy : less x y with
    | true =>
      obtain ⟨l₁, m, rfl, hm, hl₁, hsink⟩ := ih (y :: back)
      refine ⟨l₁, m ++ [y], by simp, ?_, hl₁, ?_⟩
      · intro z hz
        obtain hz | hz := mem_append.mp hz
        · exact hm z hz
        · rw [mem_singleton.mp hz]
          exact hxy
      · show (if less x y = true then _ else _) = _
        rw [if_pos hxy, swap_neighbours]
        show sink less _ _ = _
        rw [hsink]
        simp
    | false =>
      refine ⟨l ++ [y], [], by simp, by simp, by simpa using hxy, ?_⟩
      show (if less x y = true then _ else _) = _
      rw [if_neg (by simp [hxy])]
      simp

/-- **Short slices** are sorted by insertion: after each turn the front of the slice is sorted. -/
theorem insertion_sorts (hless : StrictWeak less) (v : List α) :
    ∃ w, insertion less v = some w ∧ Sorts (cmpOf less) v w := by
  have := hless.transCmp
  obtain rfl | hne := eq_nil_or_concat v
  · exact ⟨[], rfl, List.Perm.refl _, nil, refl _⟩
  have hpos : 0 < v.length := by
    obtain ⟨l, x, rfl⟩ := hne
    simp
  have hloop := foldlM_range' (f := sink less) (s := v)
    (fun i s => ∃ p, s = p ++ v.drop i ∧ p.length = i ∧ Sorts (cmpOf less) (v.take i) p)
    (v.length - 1) 1 ?_ ?_
  · obtain ⟨w, hw, p, rfl, -, hp⟩ := hloop
    rw [show 1 + (v.length - 1) = v.length by omega, drop_length, append_nil] at hw
    rw [show 1 + (v.length - 1) = v.length by omega, take_length] at hp
    exact ⟨p, hw, hp⟩
  · rintro i s - hi ⟨p, rfl, hlen, hp⟩
    have hlt : i < v.length := by omega
    rw [drop_eq_getElem_cons hlt]
    obtain ⟨l₁, m, rfl, hm, hl₁, hsink⟩ := sink_eq less p v[i] (v.drop (i + 1))
    rw [hlen] at hsink
    refine ⟨_, hsink, l₁ ++ v[i] :: m, by simp, ?_, ?_⟩
    · rw [length_append] at hlen
      rw [length_append, length_cons]
      omega
    · have htake : v.take (i + 1) = v.take i ++ [v[i]] := by simp
      have hlast : SameTies (cmpOf less) (v.take i ++ [v[i]]) (l₁ ++ m ++ [v[i]]) :=
        hp.ties.append (refl _)
      rw [htake]
      refine ⟨?_, ?_, ?_⟩
      · exact (perm_middle.trans (perm_append_singleton _ _).symm).trans (hp.perm.append_right _)
      · exact inOrder_insert hp.inOrder (fun y hy => cmpOf_eq_lt.mpr (hm y hy)) fun y hy => by
          rw [Ne, cmpOf_eq_lt, hl₁ y hy]
          exact Bool.false_ne_true
      · exact hlast.trans (sameTies_insert fun y hy => cmpOf_eq_lt.mpr (hm y hy))
  · obtain ⟨x, v', rfl⟩ := exists_cons_of_length_pos hpos
    exact ⟨[x], rfl, rfl, List.Perm.refl _, pairwise_singleton _ _, refl _⟩

end Insertion

/-! ### Merging positions -/

section Merging

variable {α : Type} {β : Type} {less : α → α → Bool}

theorem mergeRuns_nil_right (l : List α) : mergeRuns less l [] = l := by
  cases l <;> rw [mergeRuns]

/-- A merge of positions is the merge of what is at them. -/
theorem mergeRuns_map (f : β → α) (l r : List β) :
    (mergeRuns (fun a b => less (f a) (f b)) l r).map f = mergeRuns less (l.map f) (r.map f) := by
  induction l, r using mergeRuns.induct (fun a b => less (f a) (f b)) with
  | case1 r => rw [mergeRuns, map_nil, mergeRuns]
  | case2 a l => rw [mergeRuns_nil_right, map_nil, mergeRuns_nil_right]
  | case3 a l b r h ih =>
    rw [mergeRuns, if_pos h, map_cons, map_cons, map_cons, mergeRuns, if_pos h, ih, map_cons]
  | case4 a l b r h ih =>
    rw [mergeRuns, if_neg h, map_cons, map_cons, map_cons, mergeRuns, if_neg h, ih, map_cons]

variable {width : ℕ} {src : List α}

theorem pass_of_ne (h : ¬(src = [] ∨ width = 0)) :
    pass less width src = mergeRuns less (src.take width) ((src.drop width).take width) ++
      pass less width (src.drop (2 * width)) := by
  rw [pass, if_neg h]

theorem passes_of_lt {n : ℕ} (h : width < n ∧ 0 < width) (src : List α) :
    passes less n width src = passes less n (2 * width) (pass less width src) := by
  rw [passes, if_pos h]

theorem pass_map (f : β → α) (width : ℕ) (src : List β) :
    (pass (fun a b => less (f a) (f b)) width src).map f = pass less width (src.map f) := by
  induction src using pass.induct width with
  | case1 src h =>
    rw [pass, if_pos h, pass, if_pos (by simpa using h), map_nil]
  | case2 src h ih =>
    have h' : ¬(src.map f = [] ∨ width = 0) := by simpa using h
    rw [pass_of_ne h, pass_of_ne h', map_append, mergeRuns_map, ih, map_take, map_take, map_drop,
      map_drop]

/-- **The passes over positions** are those over the elements at them. -/
theorem passes_map (f : β → α) (n width : ℕ) (src : List β) :
    (passes (fun a b => less (f a) (f b)) n width src).map f = passes less n width (src.map f) := by
  induction width, src using passes.induct (fun a b => less (f a) (f b)) n with
  | case1 width src h ih =>
    rw [passes_of_lt h, passes_of_lt h, ih, pass_map]
  | case2 width src h => rw [passes, if_neg h, passes, if_neg h]

variable (less) in
theorem mergeRuns_interleaves (l r : List α) : ∃ cs,
    Interleaves (fun x y => less y x = false) (fun x y => less y x = true) l r cs
      (mergeRuns less l r) := by
  induction l, r using mergeRuns.induct less with
  | case1 r =>
    rw [mergeRuns]
    induction r with
    | nil => exact ⟨[], .nil⟩
    | cons b r ih =>
      obtain ⟨cs, hcs⟩ := ih
      exact ⟨true :: cs, .right (by simp) hcs⟩
  | case2 a l =>
    rw [mergeRuns_nil_right]
    induction a :: l with
    | nil => exact ⟨[], .nil⟩
    | cons b l ih =>
      obtain ⟨cs, hcs⟩ := ih
      exact ⟨false :: cs, .left (by simp) hcs⟩
  | case3 a l b r h ih =>
    obtain ⟨cs, hcs⟩ := ih
    rw [mergeRuns, if_pos h]
    exact ⟨false :: cs, .left (by simpa using h) hcs⟩
  | case4 a l b r h ih =>
    obtain ⟨cs, hcs⟩ := ih
    rw [mergeRuns, if_neg h]
    exact ⟨true :: cs, .right (by simpa using h) hcs⟩

/-- Runs of a width, each sorted; the last may be shorter. -/
inductive Runs (cmp : α → α → Ordering) (width : ℕ) : List α → Prop
  | short {l : List α} : l.length ≤ width → InOrder cmp l → Runs cmp width l
  | cons {a l : List α} : a.length = width → InOrder cmp a → Runs cmp width l →
      Runs cmp width (a ++ l)

theorem runs_one {cmp : α → α → Ordering} (l : List α) : Runs cmp 1 l := by
  induction l with
  | nil => exact .short (zero_le _) nil
  | cons x l ih => exact .cons (a := [x]) rfl (pairwise_singleton _ _) ih

variable {l : List α}

variable {cmp : α → α → Ordering}

/-- Runs as wide as the slice are the slice, sorted. -/
theorem Runs.inOrder (h : Runs cmp width l) (hle : l.length ≤ width) : InOrder cmp l := by
  cases h with
  | short _ h => exact h
  | @cons a l hlen ha _ =>
    rw [length_append] at hle
    obtain rfl := eq_nil_of_length_eq_zero (show l.length = 0 by omega)
    rwa [append_nil]

/-- Runs start with two of them, and the second is last unless both have the width. -/
theorem Runs.split (h : Runs cmp width l) :
    ∃ a b rest, l = a ++ (b ++ rest) ∧ l.take width = a ∧ (l.drop width).take width = b ∧
      l.drop (2 * width) = rest ∧ InOrder cmp a ∧ InOrder cmp b ∧ Runs cmp width rest ∧
      a.length + b.length ≤ 2 * width ∧ (rest = [] ∨ a.length + b.length = 2 * width) := by
  have hnil : Runs cmp width [] := .short (Nat.zero_le _) nil
  cases h with
  | short hle hl =>
    refine ⟨l, [], [], by simp, take_of_length_le hle, ?_, ?_, hl, nil, hnil, ?_, .inl rfl⟩
    · rw [drop_eq_nil_of_le hle, take_nil]
    · exact drop_eq_nil_of_le (by omega)
    · rw [length_nil]
      omega
  | @cons a l ha hao h =>
    have htake : (a ++ l).take width = a := by rw [← ha, take_left]
    have hdrop : (a ++ l).drop width = l := by rw [← ha, drop_left]
    have hdrop₂ : (a ++ l).drop (2 * width) = l.drop width := by
      rw [Nat.two_mul, ← drop_drop, hdrop]
    cases h with
    | short hle hl =>
      refine ⟨a, l, [], by simp, htake, ?_, ?_, hao, hl, hnil, by omega, .inl rfl⟩
      · rw [hdrop, take_of_length_le hle]
      · rw [hdrop₂, drop_eq_nil_of_le hle]
    | @cons b l hb hbo h =>
      refine ⟨a, b, l, rfl, htake, ?_, ?_, hao, hbo, h, by omega, .inr (by omega)⟩
      · rw [hdrop, ← hb, take_left]
      · rw [hdrop₂, ← hb, drop_left]

/-- Two neighbouring runs merge into a run of both widths, with ties in their order. -/
theorem mergeRuns_sorts (hless : StrictWeak less) {r : List α} (hl : InOrder (cmpOf less) l)
    (hr : InOrder (cmpOf less) r) : Sorts (cmpOf less) (l ++ r) (mergeRuns less l r) := by
  have := hless.transCmp
  obtain ⟨cs, h⟩ := mergeRuns_interleaves less l r
  have hright : ∀ x y, less y x = true → cmpOf less y x = .lt := fun _ _ hyx =>
    cmpOf_eq_lt.mpr hyx
  refine ⟨h.perm, h.inOrder (fun x y hyx => ?_) hright hl hr, h.sameTies hright hl⟩
  rw [Ne, cmpOf_eq_lt, hyx]
  exact Bool.false_ne_true

/-- **One pass** merges the runs into runs of twice their width. -/
theorem pass_runs (hless : StrictWeak less) (hpos : 0 < width) (h : Runs (cmpOf less) width src) :
    Runs (cmpOf less) (2 * width) (pass less width src) ∧ (pass less width src).Perm src ∧
      SameTies (cmpOf less) src (pass less width src) := by
  induction src using pass.induct width with
  | case1 src hnil =>
    obtain rfl : src = [] := by
      obtain hnil | hzero := hnil
      · exact hnil
      · omega
    rw [pass, if_pos (.inl rfl)]
    exact ⟨.short (zero_le _) nil, List.Perm.refl _, refl _⟩
  | case2 src hne ih =>
    obtain ⟨a, b, rest, hsrc, ha, hb, hrest, hao, hbo, hruns, hle, hlast⟩ := h.split
    rw [pass_of_ne hne, ha, hb, hrest]
    rw [hrest] at ih
    obtain ⟨hruns', hperm, hties⟩ := ih hruns
    have hmerge := mergeRuns_sorts hless hao hbo
    have hlen : (mergeRuns less a b).length = a.length + b.length := by
      rw [hmerge.perm.length_eq, length_append]
    refine ⟨?_, ?_, ?_⟩
    · obtain rfl | hfull := hlast
      · rw [pass, if_pos (.inl rfl), append_nil]
        exact .short (by omega) hmerge.inOrder
      · exact .cons (by omega) hmerge.inOrder hruns'
    · rw [hsrc, ← append_assoc]
      exact hmerge.perm.append hperm
    · rw [hsrc, ← append_assoc]
      exact hmerge.ties.append hties

/-- **The passes** sort the slice. -/
theorem passes_sorts (hless : StrictWeak less) {n : ℕ} (hpos : 0 < width) (hlen : src.length = n)
    (h : Runs (cmpOf less) width src) :
    Sorts (cmpOf less) src (passes less n width src) := by
  induction width, src using passes.induct less n with
  | case1 width src hlt ih =>
    obtain ⟨hruns, hperm, hties⟩ := pass_runs hless hpos h
    have hsorts := ih (by omega) (hperm.length_eq.trans hlen) hruns
    rw [passes_of_lt hlt]
    exact ⟨hsorts.perm.trans hperm, hsorts.inOrder, hties.trans hsorts.ties⟩
  | case2 width src hge =>
    rw [passes, if_neg hge]
    exact ⟨List.Perm.refl _, h.inOrder (by omega), refl _⟩

theorem mergeRuns_perm (l r : List α) : (mergeRuns less l r).Perm (l ++ r) := by
  obtain ⟨cs, h⟩ := mergeRuns_interleaves less l r
  exact h.perm

theorem pass_perm (hpos : 0 < width) (src : List α) :
    (pass less width src).Perm src := by
  induction src using pass.induct width with
  | case1 src hnil =>
    obtain rfl : src = [] := by
      obtain hnil | hzero := hnil
      · exact hnil
      · omega
    rw [pass, if_pos (.inl rfl)]
  | case2 src hne ih =>
    have hsplit : src.take width ++ (src.drop width).take width ++ src.drop (2 * width) = src := by
      rw [Nat.two_mul, ← drop_drop, append_assoc, take_append_drop, take_append_drop]
    rw [pass_of_ne hne]
    exact ((mergeRuns_perm _ _).append ih).trans (List.Perm.of_eq hsplit)

theorem passes_perm {n : ℕ} (hpos : 0 < width) (src : List α) :
    (passes less n width src).Perm src := by
  induction width, src using passes.induct less n with
  | case1 width src hlt ih =>
    rw [passes_of_lt hlt]
    exact (ih (by omega)).trans (pass_perm hpos src)
  | case2 width src hge => rw [passes, if_neg hge]

end Merging

/-! ### The permutation in place -/

section Permuting

variable {α : Type} {v w : List α} {order : List ℕ} {τ : ℕ → ℕ} {n start at_ : ℕ}

/-- The slice in the middle of its permutation into `w`: what belongs at `i` lies at `τ i`. -/
structure Settled (v w : List α) (n : ℕ) (τ : ℕ → ℕ) : Prop where
  length : v.length = n
  injective : Function.Injective τ
  lt : ∀ i < n, τ i < n
  moved : ∀ i < n, v[τ i]? = w[i]?

/-- A turn of a cycle at `at_`: the order is `τ` but for the end of the cycle, which still names the
start, whose element lies at `at_`. -/
structure Turn (v w : List α) (order : List ℕ) (n : ℕ) (τ : ℕ → ℕ) (start at_ : ℕ) : Prop
    extends Settled v w n τ where
  order_eq : ∀ i < n, order[i]? = some (if τ i = at_ then start else τ i)
  order_length : order.length = n
  at_lt : at_ < n
  start_eq : at_ = start ∨ τ start = start

/-- How many elements are not at their place. -/
def unsettled (n : ℕ) (τ : ℕ → ℕ) : ℕ := ((Finset.range n).filter fun i => τ i ≠ i).card

theorem swap_eq (hi : at_ < v.length) {from_ : ℕ} (hj : from_ < v.length) :
    ∃ v', swap v at_ from_ = some v' ∧ v'.length = v.length ∧
      ∀ k < v.length, v'[Equiv.swap at_ from_ k]? = v[k]? := by
  refine ⟨(v.set at_ v[from_]).set from_ v[at_], ?_, by simp, fun k hk => ?_⟩
  · rw [swap, getElem?_eq_getElem hi, getElem?_eq_getElem hj]
    rfl
  · rw [Equiv.swap_apply_def]
    split
    · next h =>
      subst h
      rw [getElem?_set_self (by simpa using hj), getElem?_eq_getElem hi]
    · next hne =>
      split
      · next h =>
        subst h
        rw [getElem?_eq_getElem hj]
        by_cases heq : k = at_
        · exact absurd heq hne
        · rw [getElem?_set_ne heq, getElem?_set_self hi]
      · next hne' =>
        rw [getElem?_set_ne (Ne.symm hne'), getElem?_set_ne (Ne.symm hne)]

/-- **A cycle** ends with its start settled, and what was settled before stays so. -/
theorem cycle_spec (turns : ℕ) (hsmall : n ≤ U32) (h : Turn v w order n τ start at_)
    (hturns : unsettled n τ < turns) :
    ∃ v' order' τ', cycle start turns at_ v order = some (v', order') ∧ Settled v' w n τ' ∧
      order'.length = n ∧ (∀ i < n, order'[i]? = some (τ' i)) ∧ τ' start = start ∧
      ∀ i, τ i = i → τ' i = i := by
  induction turns generalizing at_ v order τ with
  | zero => omega
  | succ turns ih =>
    have hat := h.at_lt
    have hu32 : toU32 at_ = at_ := if_pos (by omega)
    have hset : ∀ i < n, (order.set at_ at_)[i]? =
        some (if i = at_ then at_ else if τ i = at_ then start else τ i) := by
      intro i hi
      by_cases hia : i = at_
      · subst hia
        rw [getElem?_set_self (by rw [h.order_length]; exact hi), if_pos rfl]
      · rw [getElem?_set_ne (Ne.symm hia), if_neg hia, h.order_eq i hi]
    rw [cycle, h.order_eq at_ hat]
    by_cases hend : τ at_ = at_
    · rw [if_pos hend]
      show ∃ v' order' τ', (if start = start then _ else _) = some (v', order') ∧ _
      rw [if_pos rfl, hu32]
      refine ⟨v, _, τ, rfl, h.toSettled, by rw [length_set, h.order_length], ?_, ?_, fun _ hi => hi⟩
      · intro i hi
        rw [hset i hi]
        by_cases hia : i = at_
        · rw [if_pos hia, hia, hend]
        · have hne : τ i ≠ at_ := fun heq => hia (h.injective (heq.trans hend.symm))
          rw [if_neg hia, if_neg hne]
      · obtain rfl | hstart := h.start_eq
        · exact hend
        · exact hstart
    · have hne : τ at_ ≠ start := by
        obtain rfl | hstart := h.start_eq
        · exact hend
        · intro heq
          refine hend ?_
          rw [heq]
          have hsame := h.injective (heq.trans hstart.symm)
          exact hsame.symm
      obtain ⟨v', hv', hlen, hmoved⟩ := swap_eq (v := v) (by rw [h.length]; exact hat)
        (by rw [h.length]; exact h.lt at_ hat)
      rw [if_neg hend]
      show ∃ v'' order' τ', (if τ at_ = start then _ else _) = some (v'', order') ∧ _
      rw [if_neg hne, hv', hu32]
      show ∃ v'' order' τ', cycle start turns (τ at_) v' (order.set at_ at_) = _ ∧ _
      -- The element at `at_` is settled; what is left of the cycle starts at `τ at_`.
      set τ' : ℕ → ℕ := fun i => Equiv.swap at_ (τ at_) (τ i) with hτ'
      have hat' : τ' at_ = at_ := by
        rw [hτ']
        exact Equiv.swap_apply_right _ _
      have hother : ∀ i, τ i ≠ at_ → i ≠ at_ → τ' i = τ i := by
        intro i hi hia
        rw [hτ']
        exact Equiv.swap_apply_of_ne_of_ne hi fun heq => hia (h.injective heq)
      have hpred : ∀ i, τ i = at_ → τ' i = τ at_ := by
        intro i hi
        rw [hτ']
        show Equiv.swap at_ (τ at_) (τ i) = τ at_
        rw [hi, Equiv.swap_apply_left]
      have hfixed : ∀ i, τ i = i → τ' i = i := by
        intro i hi
        have hia : i ≠ at_ := by
          rintro rfl
          exact hend hi
        rw [hother i (by rw [hi]; exact hia) hia, hi]
      have hturn : Turn v' w (order.set at_ at_) n τ' start (τ at_) := by
        refine ⟨⟨?_, ?_, ?_, ?_⟩, ?_, ?_, h.lt at_ hat, ?_⟩
        · rw [hlen, h.length]
        · exact (Equiv.injective _).comp h.injective
        · intro i hi
          by_cases hia : i = at_
          · rw [hia, hat']
            exact hat
          · by_cases hp : τ i = at_
            · rw [hpred i hp]
              exact h.lt at_ hat
            · rw [hother i hp hia]
              exact h.lt i hi
        · intro i hi
          rw [hmoved (τ i) (by rw [h.length]; exact h.lt i hi), h.moved i hi]
        · intro i hi
          rw [hset i hi]
          by_cases hia : i = at_
          · rw [if_pos hia, hia, hat', if_neg (Ne.symm hend)]
          · rw [if_neg hia]
            by_cases hp : τ i = at_
            · rw [if_pos hp, hpred i hp, if_pos rfl]
            · have hne' : τ i ≠ τ at_ := fun heq => hia (h.injective heq)
              rw [if_neg hp, hother i hp hia, if_neg hne']
        · rw [length_set, h.order_length]
        · refine .inr ?_
          obtain rfl | hstart := h.start_eq
          · exact hat'
          · exact hfixed start hstart
      have hless : unsettled n τ' < unsettled n τ := by
        refine Finset.card_lt_card ((Finset.ssubset_iff_of_subset ?_).mpr ⟨at_, ?_, ?_⟩)
        · intro i hi
          rw [Finset.mem_filter] at hi ⊢
          exact ⟨hi.1, fun heq => hi.2 (hfixed i heq)⟩
        · rw [Finset.mem_filter, Finset.mem_range]
          exact ⟨hat, hend⟩
        · rw [Finset.mem_filter, not_and, not_not]
          exact fun _ => hat'
      obtain ⟨v'', order', τ'', hcycle, hsettled, hlength, horder, hstart, hkeep⟩ :=
        ih hturn (by omega)
      exact ⟨v'', order', τ'', hcycle, hsettled, hlength, horder, hstart,
        fun i hi => hkeep i (hfixed i hi)⟩

/-- The elements at positions that are all in range. -/
theorem getElem?_elements {v : List α} (order : List ℕ) (h : ∀ p ∈ order, p < v.length) (i : ℕ) :
    (order.filterMap (v[·]?))[i]? = (order[i]?).bind (v[·]?) := by
  induction order generalizing i with
  | nil => simp
  | cons p order ih =>
    obtain ⟨x, hp⟩ : ∃ x, v[p]? = some x := ⟨_, getElem?_eq_getElem (h p mem_cons_self)⟩
    rw [filterMap_cons_some hp]
    cases i with
    | zero => simp [hp]
    | succ i => simpa using ih (fun q hq => h q (mem_cons_of_mem _ hq)) i

/-- **The permutation in place** moves what is at `order[i]` to `i`, and leaves the identity. -/
theorem permute_eq (v : List α) (order : List ℕ) (hperm : order.Perm (List.range v.length))
    (hu32 : ∀ p ∈ order, p < U32) :
    permute v order = some (order.filterMap (v[·]?), List.range v.length) := by
  have hlen : order.length = v.length := by simpa using hperm.length_eq
  have hmem : ∀ p ∈ order, p < v.length := fun p hp => mem_range.mp (hperm.mem_iff.mp hp)
  have hget := getElem?_elements order hmem
  set w := order.filterMap (v[·]?) with hw
  have hsmall : v.length ≤ U32 := by
    by_contra hlarge
    have hlast := hu32 (v.length - 1) (hperm.mem_iff.mpr (mem_range.mpr (by omega)))
    omega
  let τ : ℕ → ℕ := fun i => if h : i < order.length then order[i] else i
  have hτ : ∀ i < v.length, order[i]? = some (τ i) := by
    intro i hi
    have hi : i < order.length := by omega
    rw [getElem?_eq_getElem hi]
    exact congrArg some (dif_pos hi).symm
  have hlt : ∀ i < v.length, τ i < v.length := fun i hi =>
    hmem _ (mem_of_getElem? (hτ i hi))
  have hbeyond : ∀ i, ¬i < v.length → τ i = i := fun i hi => dif_neg (by omega)
  have hinj : Function.Injective τ := by
    intro i j hij
    by_cases hi : i < v.length
    · by_cases hj : j < v.length
      · have hnodup : order.Nodup := hperm.nodup_iff.mpr nodup_range
        have hi' : i < order.length := by omega
        refine (getElem?_inj hi' hnodup).mp ?_
        rw [hτ i hi, hτ j hj, hij]
      · have := hlt i hi
        rw [hij, hbeyond j hj] at this
        exact absurd this hj
    · by_cases hj : j < v.length
      · have := hlt j hj
        rw [← hij, hbeyond i hi] at this
        exact absurd this hi
      · rwa [hbeyond i hi, hbeyond j hj] at hij
  obtain ⟨⟨v', order'⟩, hloop, τ', hsettled, hlength, horder, hfixed⟩ := foldlM_range'
    (f := fun s start => cycle start (v.length + 1) start s.1 s.2) (s := (v, order))
    (fun k s => ∃ τ', Settled s.1 w v.length τ' ∧ s.2.length = v.length ∧
      (∀ i < v.length, s.2[i]? = some (τ' i)) ∧ ∀ i < k, τ' i = i)
    v.length 0 (fun k s _ hk ⟨τ', hs, hlength, horder, hfixed⟩ => by
      have hturn : Turn s.1 w s.2 v.length τ' k k := by
        refine ⟨hs, fun i hi => ?_, hlength, by omega, .inl rfl⟩
        rw [horder i hi]
        split
        · next heq => rw [heq]
        · rfl
      have hcard : unsettled v.length τ' < v.length + 1 := by
        have := Finset.card_filter_le (Finset.range v.length) fun i => τ' i ≠ i
        rw [Finset.card_range] at this
        unfold unsettled
        omega
      obtain ⟨v₁, order₁, τ₁, hcycle, hs₁, hlength₁, horder₁, hstart, hkeep⟩ :=
        cycle_spec (v.length + 1) hsmall hturn hcard
      refine ⟨(v₁, order₁), hcycle, τ₁, hs₁, hlength₁, horder₁, fun i hi => ?_⟩
      by_cases hik : i = k
      · rw [hik, hstart]
      · exact hkeep i (hfixed i (by omega)))
    ⟨τ, ⟨rfl, hinj, hlt, fun i hi => by rw [hget i, hτ i hi]; rfl⟩, hlen, hτ,
      fun i hi => absurd hi (not_lt_zero i)⟩
  rw [permute, hloop]
  have hwlen : w.length = v.length := by
    refine le_antisymm (hlen ▸ length_filterMap_le _ _) ?_
    by_contra hshort
    have hnone : w[w.length]? = none := getElem?_eq_none le_rfl
    rw [hget, hτ _ (by omega)] at hnone
    have := hlt w.length (by omega)
    simp at hnone
    omega
  have hid : ∀ i < v.length, τ' i = i := fun i hi => hfixed i (by omega)
  have hv' : v' = w := by
    refine ext_getElem? fun i => ?_
    by_cases hi : i < v.length
    · have := hsettled.moved i hi
      rwa [hid i hi] at this
    · rw [getElem?_eq_none (by rw [hsettled.length]; omega), getElem?_eq_none (by omega)]
  have horder' : order' = range v.length := by
    refine ext_getElem? fun i => ?_
    by_cases hi : i < v.length
    · rw [horder i hi, hid i hi, getElem?_range hi]
    · rw [getElem?_eq_none (by rw [hlength]; omega), getElem?_eq_none (by simp; omega)]
  rw [hv', horder']

end Permuting

/-! ### Stability -/

section Stability

variable {α : Type} {less : α → α → Bool}

/-- Sorting positions by what is at them and moving the elements there sorts the slice. -/
theorem permute_positions (hless : StrictWeak less) (v : List α) (hlen : v.length < U32) {n : ℕ}
    (hn : n = v.length) {lessAt : Fin n → Fin n → Bool}
    (hat : ∀ a b, lessAt a b = less (v.get (a.cast hn)) (v.get (b.cast hn))) :
    ∃ order, positions n lessAt = some order ∧
      ∃ w, permute v (order.map Fin.val) = some (w, List.range v.length) ∧
        Sorts (cmpOf less) v w := by
  subst hn
  obtain rfl : lessAt = fun a b => less (v.get a) (v.get b) := funext fun a => funext fun b => hat a
    b
  refine ⟨_, if_pos hlen, ?_⟩
  set order := passes (fun a b => less (v.get a) (v.get b)) v.length 1 (finRange v.length)
    with horder
  have hperm : order.Perm (finRange v.length) := passes_perm one_pos _
  have hrange : (order.map Fin.val).Perm (range v.length) := by
    refine (hperm.map _).trans ?_
    rw [map_coe_finRange_eq_range]
  have hbelow : ∀ p ∈ order.map Fin.val, p < U32 := by
    intro p hp
    obtain ⟨q, -, rfl⟩ := mem_map.mp hp
    exact q.isLt.trans hlen
  have helements : (order.map Fin.val).filterMap (v[·]?) = order.map v.get := by
    rw [filterMap_map, ← filterMap_eq_map]
    refine filterMap_congr fun q _ => ?_
    exact getElem?_eq_getElem q.isLt
  have hmerge : order.map v.get = passes less v.length 1 v := by
    rw [horder, passes_map, ← ofFn_eq_map, ofFn_get]
  refine ⟨_, permute_eq v _ hrange hbelow, ?_⟩
  rw [helements, hmerge]
  exact passes_sorts hless one_pos rfl (runs_one v)

theorem sortByLess_sorts (hless : StrictWeak less) (v : List α) (hlen : v.length < U32) :
    ∃ w, sortByLess less v = some w ∧ Sorts (cmpOf less) v w := by
  unfold sortByLess
  split
  · exact insertion_sorts hless v
  · obtain ⟨order, hpos, w, hpermute, hsorts⟩ :
        ∃ order, positions v.length (fun a b => less (v.get a) (v.get b)) = some order ∧
          ∃ w, permute v (order.map Fin.val) = some (w, range v.length) ∧ Sorts (cmpOf less) v w :=
      permute_positions hless v hlen rfl fun _ _ => rfl
    rw [hpos]
    refine ⟨w, ?_, hsorts⟩
    show (permute v (order.map Fin.val)).bind _ = _
    rw [hpermute]
    rfl

/-- `sort_stable_by_cached_key` sorts stably by the keys. -/
theorem sortStableByCachedKey_sorts [LinearOrder K] (f : α → K) (v : List α) (hlen : v.length < U32)
    :
    ∃ w, sortStableByCachedKey f v = some w ∧ Sorts (cmpOf fun a b => f a < f b) v w := by
  unfold sortStableByCachedKey
  split
  · next hshort =>
    refine ⟨v, rfl, List.Perm.refl _, ?_, refl _⟩
    match v, hshort with
    | [], _ => exact nil
    | [x], _ => exact pairwise_singleton _ _
  · have hkey : ∀ a : Fin (v.map f).length, (v.map f).get a =
        f (v.get (a.cast (length_map f))) := fun a => by simp
    obtain ⟨order, hpos, w, hpermute, hsorts⟩ : ∃ order, positions (v.map f).length
            (fun a b => (v.map f).get a < (v.map f).get b) = some order ∧
          ∃ w, permute v (order.map Fin.val) = some (w, range v.length) ∧
            Sorts (cmpOf fun a b => f a < f b) v w :=
      permute_positions (strictWeak_key f) v hlen (length_map f) fun a b => by rw [hkey, hkey]
    refine ⟨w, ?_, hsorts⟩
    show (positions (v.map f).length fun a b => (v.map f).get a < (v.map f).get b).bind _ = _
    rw [hpos]
    show (permute v (order.map Fin.val)).bind _ = _
    rw [hpermute]
    rfl

/-- **`SliceSort` is a stable sort** of every slice of fewer than `2^32` elements: `sort_by_less`,
on both of its paths, and `sort_stable_by_cached_key` leave its elements in order, with those that
compare equal in the order of the slice. `permute` moves exactly what is at `order[i]` to `i`, for
every permutation of positions that are `u32`. -/
theorem slice_sort_stable {K : Type} [LinearOrder K] (less : α → α → Bool) (f : α → K) (v : List α)
    (hless : StrictWeak less) (hlen : v.length < 2 ^ 32) :
    (∃ w, sortByLess less v = some w ∧ Sorts (cmpOf less) v w) ∧
      (∃ w, sortStableByCachedKey f v = some w ∧ Sorts (cmpOf fun a b => f a < f b) v w) ∧
      ∀ (u : List α) (order : List ℕ), order.Perm (List.range u.length) → (∀ p ∈ order, p < 2 ^ 32)
        →
        permute u order = some (order.filterMap (u[·]?), List.range u.length) :=
  ⟨sortByLess_sorts hless v hlen, sortStableByCachedKey_sorts f v hlen, permute_eq⟩

theorem slice_sort_stable_reverse :
    (∃ w, sortByLess (fun a b : ℕ => decide (a < b)) [2, 1, 2] = some w ∧
        Sorts (cmpOf fun a b => decide (a < b)) [2, 1, 2] w) ∧
      (∃ w, sortStableByCachedKey (fun a : ℕ => a) [2, 1, 2] = some w ∧
        Sorts (cmpOf fun a b => decide (a < b)) [2, 1, 2] w) ∧
      ∀ (u : List ℕ) (order : List ℕ), order.Perm (List.range u.length) →
        (∀ p ∈ order, p < 2 ^ 32) →
        permute u order = some (order.filterMap (u[·]?), List.range u.length) :=
  slice_sort_stable _ _ _ (strictWeak_key fun a => a) (by decide)

/-- A slice of `2^32` elements is not sorted: its positions are no `u32`s. -/
theorem sortByLess_long {v : List α} (h : U32 ≤ v.length) : sortByLess less v = none := by
  have hlong : ¬v.length ≤ SMALL := by
    have hlarge : 2 ^ 32 ≤ v.length := h
    unfold SMALL
    omega
  rw [sortByLess, if_neg hlong, positions, if_neg (by omega)]
  rfl

/-- A slice has one stable sort, so the sort by cached keys is the sort by keys, also where there is
none because the positions are no `u32`s. -/
theorem cached_key_agrees [LinearOrder K] (f : α → K) (v : List α) :
    sortStableByCachedKey f v = sortStableByKey f v := by
  rcases lt_or_ge v.length U32 with hlen | hlong
  · obtain ⟨w, hw, hcached⟩ := sortStableByCachedKey_sorts f v hlen
    obtain ⟨u, hu, hplain⟩ := sortByLess_sorts (strictWeak_key f) v hlen
    have : Std.TransCmp (cmpOf fun a b => decide (f a < f b)) := (strictWeak_key f).transCmp
    have hties : SameTies (cmpOf fun a b => decide (f a < f b)) w u := fun a =>
      (hplain.ties a).trans (hcached.ties a).symm
    have heq : w = u :=
      hcached.inOrder.eq_of_sameTies hplain.inOrder (hcached.perm.trans hplain.perm.symm) hties
    rw [hw, sortStableByKey, hu, heq]
  · have hshort : ¬v.length < 2 := fun h => absurd (hlong.trans_lt h) (by decide)
    rw [sortStableByKey, sortByLess_long hlong, sortStableByCachedKey, if_neg hshort]
    dsimp only
    rw [positions, if_neg (by rw [length_map]; exact not_lt.mpr hlong)]
    rfl

theorem slice_sort_long : StrictWeak (fun a b : ℕ => decide (a < b)) ∧
    sortByLess (fun a b => decide (a < b)) (List.replicate (2 ^ 32) 0) = none :=
  ⟨strictWeak_key fun a => a, sortByLess_long List.length_replicate.ge⟩

end Stability

end HdLang.SliceSort
