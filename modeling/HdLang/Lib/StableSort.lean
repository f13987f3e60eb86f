import Mathlib.Data.List.Perm.Basic
import Mathlib.Order.Basic

/-!
# Stable sorting

A comparison gives an order of its own when it is a `TransCmp`: a strict weak order. `InOrder` says
that a list is sorted by it and `SameTies` that two lists have, for each element, the elements that
compare equal to it in the same order. What a stable sort does to a list it does by inserting an
element, by merging two sorted lists, by reversing a strictly descending one and by gathering the
elements that are less than, equal to and greater than a pivot; each keeps `SameTies`, and gives a
list that is in order if its parts are.
-/

universe u

namespace StableSort

open List

variable {α : Type u} (cmp : α → α → Ordering)

/-- Sorted by the comparison. -/
def InOrder (l : List α) : Prop := l.Pairwise fun a b => (cmp a b).isLE

/-- The elements that compare equal to `a`. -/
def ties (a : α) (l : List α) : List α := l.filter fun b => cmp a b == .eq

/-- What compares equal has the same order in both lists. -/
def SameTies (l l' : List α) : Prop := ∀ a, ties cmp a l' = ties cmp a l

variable {cmp} {l l' m m' r r' out : List α} {x y : α}

@[simp] theorem ties_append (a : α) : ties cmp a (l ++ m) = ties cmp a l ++ ties cmp a m :=
  filter_append ..

theorem ties_eq_nil {a : α} (h : ∀ b ∈ l, cmp a b ≠ .eq) : ties cmp a l = [] := by
  refine filter_eq_nil_iff.mpr fun b hb => ?_
  rw [beq_iff_eq]
  exact h b hb

namespace SameTies

theorem refl (l : List α) : SameTies cmp l l := fun _ => rfl

theorem trans (h : SameTies cmp l m) (h' : SameTies cmp m r) : SameTies cmp l r := fun a =>
  (h' a).trans (h a)

theorem append (h : SameTies cmp l l') (h' : SameTies cmp m m') :
    SameTies cmp (l ++ m) (l' ++ m') := by
  intro a
  rw [ties_append, ties_append, h a, h' a]

end SameTies

/-! ### Order -/

section Order

variable [Std.TransCmp cmp]

theorem isLE_of_ne_lt (h : cmp y x ≠ .lt) : (cmp x y).isLE := by
  have hswap : cmp x y = (cmp y x).swap := Std.OrientedCmp.eq_swap
  rw [hswap]
  cases hyx : cmp y x with
  | lt => exact absurd hyx h
  | eq => rfl
  | gt => rfl

omit [Std.TransCmp cmp] in
theorem isLE_of_lt (h : cmp x y = .lt) : (cmp x y).isLE := by
  rw [h]
  rfl

theorem isLE_trans {a b c : α} (h : (cmp a b).isLE) (h' : (cmp b c).isLE) : (cmp a c).isLE :=
  Std.TransCmp.isLE_trans h h'

theorem isLE_of_chain (h : l.IsChain fun a b => (cmp a b).isLE) : InOrder cmp l := by
  have : IsTrans α fun a b => (cmp a b).isLE := ⟨fun _ _ _ => isLE_trans⟩
  exact isChain_iff_pairwise.mp h

theorem InOrder.eq_of_sameTies (hl : InOrder cmp l) (hm : InOrder cmp m) (hperm : l.Perm m)
    (hties : SameTies cmp l m) : l = m := by
  induction l generalizing m with
  | nil => exact (nil_perm.mp hperm).symm
  | cons a l ih =>
    cases m with
    | nil => exact perm_nil.mp hperm
    | cons b m =>
      have hba : (cmp b a).isLE := (mem_cons.mp (hperm.mem_iff.mp mem_cons_self)).elim
        (fun h => h ▸ Std.ReflCmp.isLE_rfl) ((pairwise_cons.mp hm).1 a)
      have hab : (cmp a b).isLE := (mem_cons.mp (hperm.mem_iff.mpr mem_cons_self)).elim
        (fun h => h ▸ Std.ReflCmp.isLE_rfl) ((pairwise_cons.mp hl).1 b)
      have heq : cmp a b = .eq := Std.OrientedCmp.isLE_antisymm hab hba
      -- the first of the elements that compare equal to `a` is the same
      have hfirst := hties a
      have hself : cmp a a = .eq := Std.ReflCmp.compare_self
      simp only [ties, filter_cons, heq, hself, beq_self_eq_true, if_true] at hfirst
      obtain rfl := (cons.inj hfirst).1
      refine congrArg (b :: ·) (ih (pairwise_cons.mp hl).2 (pairwise_cons.mp hm).2
        hperm.cons_inv fun x => ?_)
      have hx := hties x
      simp only [ties, filter_cons] at hx
      split at hx
      · exact (cons.inj hx).2
      · exact hx

/-! ### Insertion -/

theorem sameTies_insert (h : ∀ y ∈ m, cmp x y = .lt) :
    SameTies cmp (l ++ m ++ [x]) (l ++ x :: m) := by
  have hmove : SameTies cmp (m ++ [x]) ([x] ++ m) := by
    intro a
    rw [ties_append, ties_append]
    by_cases hax : cmp a x = .eq
    · have hm : ties cmp a m = [] := ties_eq_nil fun y hy heq => by
        have hxy : cmp x y = .eq := Std.TransCmp.eq_trans (Std.OrientedCmp.eq_symm hax) heq
        rw [h y hy] at hxy
        cases hxy
      rw [hm, append_nil, nil_append]
    · have hx : ties cmp a [x] = [] := ties_eq_nil fun y hy => by
        rw [mem_singleton.mp hy]
        exact hax
      rw [hx, append_nil, nil_append]
  rw [append_assoc]
  exact (SameTies.refl l).append hmove

/-- An element put after the elements that it is not less than and before those it is less than. -/
theorem inOrder_insert (h : InOrder cmp (l ++ m)) (hm : ∀ y ∈ m, cmp x y = .lt)
    (hl : ∀ y ∈ l.getLast?, cmp x y ≠ .lt) : InOrder cmp (l ++ x :: m) := by
  obtain ⟨hl', hm', hlm⟩ := pairwise_append.mp h
  have hlast : ∀ y ∈ l, (cmp y x).isLE := by
    rcases eq_nil_or_concat l with rfl | ⟨l₀, z, rfl⟩
    · exact fun y hy => absurd hy not_mem_nil
    · have hz : (cmp z x).isLE := isLE_of_ne_lt (hl z (by simp))
      intro y hy
      rw [concat_eq_append] at hy hl'
      obtain hy | hy := mem_append.mp hy
      · exact isLE_trans ((pairwise_append.mp hl').2.2 y hy z (mem_singleton_self z)) hz
      · exact mem_singleton.mp hy ▸ hz
  refine pairwise_append.mpr ⟨hl', pairwise_cons.mpr ⟨fun y hy => ?_, hm'⟩, ?_⟩
  · exact isLE_of_lt (hm y hy)
  · intro a ha b hb
    obtain rfl | hb := mem_cons.mp hb
    · exact hlast a ha
    · exact hlm a ha b hb

/-! ### Merging -/

end Order

/-- `out` is made of `l` and `r` by taking the next element of one of them each time: `cs` says from
which. An element of the left is taken when `L` holds of it and the next of the right, and one of
the right when `R` holds of the next of the left and it. -/
inductive Interleaves (L R : α → α → Prop) : List α → List α → List Bool → List α → Prop
  | nil : Interleaves L R [] [] [] []
  | left {x : α} {l r : List α} {cs : List Bool} {out : List α} (h : ∀ y ∈ r.head?, L x y)
      (rest : Interleaves L R l r cs out) : Interleaves L R (x :: l) r (false :: cs) (x :: out)
  | right {y : α} {l r : List α} {cs : List Bool} {out : List α} (h : ∀ x ∈ l.head?, R x y)
      (rest : Interleaves L R l r cs out) : Interleaves L R l (y :: r) (true :: cs) (y :: out)

namespace Interleaves

variable {L R : α → α → Prop} {cs : List Bool}

theorem perm (h : Interleaves L R l r cs out) : out.Perm (l ++ r) := by
  induction h with
  | nil => exact List.Perm.refl _
  | left _ _ ih => exact ih.cons _
  | right _ _ ih => exact (ih.cons _).trans perm_middle.symm

theorem length_eq (h : Interleaves L R l r cs out) : cs.length = l.length + r.length := by
  induction h with
  | nil => rfl
  | left _ _ ih =>
    rw [length_cons, length_cons, ih]
    omega
  | right _ _ ih =>
    rw [length_cons, length_cons, ih]
    omega

variable [Std.TransCmp cmp]

theorem inOrder (h : Interleaves L R l r cs out) (hL : ∀ x y, L x y → cmp y x ≠ .lt)
    (hR : ∀ x y, R x y → cmp y x = .lt) (hl : InOrder cmp l) (hr : InOrder cmp r) :
    InOrder cmp out := by
  induction h with
  | nil => exact List.Pairwise.nil
  | @left x l r cs out h rest ih =>
    obtain ⟨hx, hl⟩ := pairwise_cons.mp hl
    refine pairwise_cons.mpr ⟨fun b hb => ?_, ih hl hr⟩
    obtain hb | hb := mem_append.mp (rest.perm.mem_iff.mp hb)
    · exact hx b hb
    · cases r with
      | nil => exact absurd hb not_mem_nil
      | cons y r =>
        have hxy : (cmp x y).isLE := isLE_of_ne_lt (hL x y (h y rfl))
        obtain rfl | hb := mem_cons.mp hb
        · exact hxy
        · exact isLE_trans hxy ((pairwise_cons.mp hr).1 b hb)
  | @right y l r cs out h rest ih =>
    obtain ⟨hy, hr⟩ := pairwise_cons.mp hr
    refine pairwise_cons.mpr ⟨fun b hb => ?_, ih hl hr⟩
    obtain hb | hb := mem_append.mp (rest.perm.mem_iff.mp hb)
    · cases l with
      | nil => exact absurd hb not_mem_nil
      | cons x l =>
        have hyx : (cmp y x).isLE := isLE_of_lt (hR x y (h x rfl))
        obtain rfl | hb := mem_cons.mp hb
        · exact hyx
        · exact isLE_trans hyx ((pairwise_cons.mp hl).1 b hb)
    · exact hy b hb

/-- An element of the right is taken before those of the left that are greater. -/
theorem sameTies (h : Interleaves L R l r cs out) (hR : ∀ x y, R x y → cmp y x = .lt)
    (hl : InOrder cmp l) : SameTies cmp (l ++ r) out := by
  induction h with
  | nil => exact SameTies.refl _
  | @left x l r cs out h rest ih =>
    exact (SameTies.refl [x]).append (ih (pairwise_cons.mp hl).2)
  | @right y l r cs out h rest ih =>
    have hgreater : ∀ b ∈ l, cmp y b = .lt := by
      cases l with
      | nil => exact fun b hb => absurd hb not_mem_nil
      | cons x l =>
        have hyx : cmp y x = .lt := hR x y (h x rfl)
        intro b hb
        obtain rfl | hb := mem_cons.mp hb
        · exact hyx
        · exact Std.TransCmp.lt_of_lt_of_isLE hyx ((pairwise_cons.mp hl).1 b hb)
    have hmove : SameTies cmp (l ++ [y] ++ r) ([y] ++ (l ++ r)) :=
      (sameTies_insert (l := []) hgreater).append (SameTies.refl r)
    rw [append_assoc] at hmove
    exact hmove.trans ((SameTies.refl [y]).append (ih hl))

end Interleaves

/-! ### Reversal -/

section Reversal

variable [Std.TransCmp cmp]

section

variable (h : l.IsChain fun a b => cmp b a = .lt)
include h

theorem pairwise_of_descending :
    l.Pairwise fun a b => cmp b a = .lt := by
  have : IsTrans α fun a b => cmp b a = .lt := ⟨fun _ _ _ hab hbc => Std.TransCmp.lt_trans hbc hab⟩
  exact isChain_iff_pairwise.mp h

theorem inOrder_reverse : InOrder cmp l.reverse :=
  pairwise_reverse.mpr ((pairwise_of_descending h).imp isLE_of_lt)

/-- No two elements of a strictly descending list compare equal. -/
theorem sameTies_reverse :
    SameTies cmp l l.reverse := by
  intro a
  have hties : (ties cmp a l).Pairwise fun _ _ => False := by
    refine List.Pairwise.imp_of_mem (fun {b c} hb hc hbc => ?_)
      ((pairwise_of_descending h).sublist filter_sublist)
    have hb' : cmp a b = .eq := beq_iff_eq.mp (mem_filter.mp hb).2
    have hc' : cmp a c = .eq := beq_iff_eq.mp (mem_filter.mp hc).2
    have hcb : cmp c b = .eq := Std.TransCmp.eq_trans (Std.OrientedCmp.eq_symm hc') hb'
    rw [hbc] at hcb
    cases hcb
  have hreverse : (ties cmp a l).reverse = ties cmp a l := by
    cases hl : ties cmp a l with
    | nil => rfl
    | cons b t =>
      cases t with
      | nil => rfl
      | cons c t =>
        rw [hl] at hties
        exact ((pairwise_cons.mp hties).1 c mem_cons_self).elim
  calc
    ties cmp a l.reverse = (ties cmp a l).reverse := filter_reverse ..
    _ = ties cmp a l := hreverse

end

/-! ### A pivot -/

/-- The elements whose comparison with the pivot gives `o`. -/
def beside (cmp : α → α → Ordering) (p : α) (o : Ordering) (l : List α) : List α :=
  l.filter fun b => cmp b p == o

omit [Std.TransCmp cmp] in
theorem of_mem_beside {p : α} {o : Ordering} (h : x ∈ beside cmp p o l) : cmp x p = o :=
  beq_iff_eq.mp (mem_filter.mp h).2

/-- What compares equal is on one side of the pivot. -/
theorem ties_beside {p : α} (a : α) (o : Ordering) :
    ties cmp a (beside cmp p o l) = if cmp a p = o then ties cmp a l else [] := by
  unfold beside ties
  rw [filter_filter]
  split
  · next ha =>
    refine filter_congr fun b _ => ?_
    by_cases hb : cmp a b = .eq
    · rw [← Std.TransCmp.congr_left hb, ha]
      simp
    · simp [beq_false_of_ne hb]
  · next ha =>
    refine filter_eq_nil_iff.mpr fun b _ hb => ?_
    obtain ⟨hb, hbp⟩ := Bool.and_eq_true_iff.mp hb
    rw [beq_iff_eq] at hb hbp
    exact ha ((Std.TransCmp.congr_left hb).trans hbp)

theorem sameTies_pivot (p : α) (l : List α) : SameTies cmp l
    (beside cmp p .lt l ++ beside cmp p .eq l ++ beside cmp p .gt l) := by
  intro a
  rw [ties_append, ties_append, ties_beside, ties_beside, ties_beside]
  cases cmp a p <;> simp

/-- The lesser elements, the equal and the greater ones are in order when the lesser and the greater
are. -/
theorem inOrder_pivot {p : α} {e : List α} (hl : ∀ x ∈ l, cmp x p = .lt)
    (he : ∀ x ∈ e, cmp x p = .eq) (hr : ∀ x ∈ r, cmp x p = .gt) (hlo : InOrder cmp l)
    (hro : InOrder cmp r) :
    InOrder cmp (l ++ e ++ r) := by
  have hgt : ∀ x ∈ r, cmp p x = .lt := fun x hx => Std.OrientedCmp.lt_of_gt (hr x hx)
  refine pairwise_append.mpr ⟨pairwise_append.mpr ⟨hlo, ?_, ?_⟩, hro, ?_⟩
  · exact pairwise_of_forall_mem_list fun a ha b hb => by
      rw [Std.TransCmp.eq_trans (he a ha) (Std.OrientedCmp.eq_symm (he b hb))]
      rfl
  · intro a ha b hb
    exact isLE_of_lt (Std.TransCmp.lt_of_lt_of_eq (hl a ha) (Std.OrientedCmp.eq_symm (he b hb)))
  · intro a ha b hb
    obtain ha | ha := mem_append.mp ha
    · exact isLE_of_lt (Std.TransCmp.lt_trans (hl a ha) (hgt b hb))
    · exact isLE_of_lt (Std.TransCmp.lt_of_eq_of_lt (he a ha) (hgt b hb))

end Reversal

end StableSort
