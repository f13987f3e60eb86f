import Mathlib.Data.List.Nodup
import Mathlib.Data.List.Perm.Subperm

/-!
# Lists threaded through pointers

A linked list in memory is a list of nonzero addresses, each of which holds the next one's, 0 at
the end; in a doubly linked one each holds the one before it too. `after l x` and `before prev l x`
are what node `x` of `l` holds then, where `prev` is what the first node holds as its predecessor.
The lemmas give the two fields of every node after a node is pushed, popped or unlinked.
-/

namespace PointerList

open List

/-- The node after `x` in `l`, 0 when `x` is the last. -/
def after : List ℕ → ℕ → ℕ
  | [], _ => 0
  | a :: l, x => if x = a then l.headD 0 else after l x

/-- The node before `x` in `l`, `prev` when `x` is the first. -/
def before (prev : ℕ) : List ℕ → ℕ → ℕ
  | [], _ => 0
  | a :: l, x => if x = a then prev else before a l x

variable {l : List ℕ} {a x p prev : ℕ}

@[simp] theorem after_cons_self : after (a :: l) a = l.headD 0 := if_pos rfl

theorem after_cons_of_ne (h : x ≠ a) : after (a :: l) x = after l x := if_neg h

@[simp] theorem before_cons_self : before prev (a :: l) a = prev := if_pos rfl

theorem before_cons_of_ne (h : x ≠ a) : before prev (a :: l) x = before a l x := if_neg h

theorem headD_mem (h : l ≠ []) : l.headD 0 ∈ l := by
  cases l with
  | nil => exact absurd rfl h
  | cons a l => exact mem_cons_self

theorem headD_eq_zero_iff (h0 : 0 ∉ l) : l.headD 0 = 0 ↔ l = [] := by
  cases l with
  | nil => simp
  | cons a l =>
    have ha : a ≠ 0 := fun h => h0 (h ▸ mem_cons_self)
    simp [ha]

theorem headD_eq_of_head (h : l.headD 0 = x) (hx : x ≠ 0) : ∃ t, l = x :: t := by
  cases l with
  | nil => exact absurd h.symm hx
  | cons a t => exact ⟨t, by rw [show a = x from h]⟩

theorem after_mem_or_zero : after l x = 0 ∨ after l x ∈ l := by
  induction l with
  | nil => exact Or.inl rfl
  | cons a l ih =>
    by_cases hx : x = a
    · subst hx
      rw [after_cons_self]
      cases l with
      | nil => exact Or.inl rfl
      | cons b l => exact Or.inr (by simp)
    · rw [after_cons_of_ne hx]
      exact ih.imp id (mem_cons_of_mem _)

theorem before_mem (prev : ℕ) (hx : x ∈ l) : before prev l x = prev ∨ before prev l x ∈ l := by
  induction l generalizing prev with
  | nil => cases hx
  | cons a l ih =>
    by_cases hxa : x = a
    · subst hxa
      exact Or.inl before_cons_self
    · rw [before_cons_of_ne hxa]
      have hxl : x ∈ l := (mem_cons.mp hx).resolve_left hxa
      rcases ih a hxl with h | h
      · exact Or.inr (by rw [h]; exact mem_cons_self)
      · exact Or.inr (mem_cons_of_mem _ h)

/-- Only the first node holds the list's outer predecessor. -/
theorem before_eq_prev_iff (hnd : l.Nodup) (hprev : prev ∉ l) (hx : x ∈ l) :
    before prev l x = prev ↔ l.headD 0 = x := by
  cases l with
  | nil => cases hx
  | cons a l =>
    by_cases hxa : x = a
    · subst hxa
      simp
    · have hxl : x ∈ l := (mem_cons.mp hx).resolve_left hxa
      rw [before_cons_of_ne hxa]
      refine ⟨fun h => ?_, fun h => absurd h.symm hxa⟩
      have hp : before a l x ∈ a :: l := by
        rcases before_mem a hxl with h' | h'
        · rw [h']
          exact mem_cons_self
        · exact mem_cons_of_mem _ h'
      exact absurd (h ▸ hp) hprev

/-- A list of distinct addresses below `n`, none of them 0, is shorter than `n`. -/
theorem length_lt_of_nodup {n : ℕ} (hnd : l.Nodup) (h0 : 0 ∉ l) (hn : 0 < n) (h : ∀ x ∈ l, x < n)
    : l.length < n := by
  have hnd' : (0 :: l).Nodup := nodup_cons.mpr ⟨h0, hnd⟩
  have hsub : 0 :: l ⊆ List.range n := by
    intro x hx
    rw [List.mem_range]
    rcases mem_cons.mp hx with rfl | hx
    · exact hn
    · exact h x hx
  have := (hnd'.subperm hsub).length_le
  rw [length_cons, length_range] at this
  exact this

private theorem headD_erase (hnd : l.Nodup) (ha : a ∉ l) (hp : p ∈ l) :
    (l.erase p).headD 0 = if a = before a l p then after l p else l.headD 0 := by
  cases l with
  | nil => cases hp
  | cons b t =>
    by_cases hpb : p = b
    · subst hpb
      rw [before_cons_self, if_pos rfl, after_cons_self, erase_cons_head]
    · have hpt : p ∈ t := (mem_cons.mp hp).resolve_left hpb
      have hne : a ≠ before b t p := by
        intro h
        rcases before_mem b hpt with h' | h'
        · exact ha (by rw [h, h']; exact mem_cons_self)
        · exact ha (by rw [h]; exact mem_cons_of_mem _ h')
      rw [before_cons_of_ne hpb, if_neg hne, erase_cons_tail (by simpa using Ne.symm hpb)]
      rfl

/-- Unlinking another node leaves the first where it is. -/
theorem headD_erase_of_ne (h : l.headD 0 ≠ p) : (l.erase p).headD 0 = l.headD 0 := by
  cases l with
  | nil => rfl
  | cons a t =>
    rw [erase_cons_tail (by simpa using h)]
    rfl

/-- The successors once `p` is unlinked: its predecessor's becomes its own. -/
theorem after_erase (hnd : l.Nodup) (hprev : prev ∉ l) (hp : p ∈ l) (hx : x ∈ l.erase p) :
    after (l.erase p) x = if x = before prev l p then after l p else after l x := by
  induction l generalizing prev with
  | nil => cases hp
  | cons a l ih =>
    have hal : a ∉ l := (nodup_cons.mp hnd).1
    have hndl : l.Nodup := (nodup_cons.mp hnd).2
    by_cases hpa : p = a
    · subst hpa
      rw [erase_cons_head] at hx ⊢
      have hxp : x ≠ p := fun h => hal (h ▸ hx)
      have hxprev : x ≠ prev := fun h => hprev (h ▸ mem_cons_of_mem _ hx)
      rw [before_cons_self, if_neg hxprev, after_cons_of_ne hxp]
    · have hpl : p ∈ l := (mem_cons.mp hp).resolve_left hpa
      rw [erase_cons_tail (by simpa using Ne.symm hpa)] at hx ⊢
      rw [before_cons_of_ne hpa, after_cons_of_ne hpa]
      by_cases hxa : x = a
      · subst hxa
        rw [after_cons_self, after_cons_self]
        exact headD_erase hndl hal hpl
      · rw [after_cons_of_ne hxa, after_cons_of_ne hxa]
        exact ih hndl hal hpl ((mem_cons.mp hx).resolve_left hxa)

/-- The predecessors once `p` is unlinked: its successor's becomes its own. -/
theorem before_erase (hnd : l.Nodup) (h0 : 0 ∉ l) (hp : p ∈ l) (hx : x ∈ l.erase p) :
    before prev (l.erase p) x = if x = after l p then before prev l p else before prev l x := by
  induction l generalizing prev with
  | nil => cases hp
  | cons a l ih =>
    have hal : a ∉ l := (nodup_cons.mp hnd).1
    have hndl : l.Nodup := (nodup_cons.mp hnd).2
    have h0l : 0 ∉ l := fun h => h0 (mem_cons_of_mem _ h)
    by_cases hpa : p = a
    · subst hpa
      rw [erase_cons_head] at hx ⊢
      have hxp : x ≠ p := fun h => hal (h ▸ hx)
      rw [after_cons_self, before_cons_self, before_cons_of_ne hxp]
      cases l with
      | nil => cases hx
      | cons b t =>
        by_cases hxb : x = b
        · subst hxb
          simp
        · rw [before_cons_of_ne hxb, before_cons_of_ne hxb, if_neg (by simpa using hxb)]
    · have hpl : p ∈ l := (mem_cons.mp hp).resolve_left hpa
      rw [erase_cons_tail (by simpa using Ne.symm hpa)] at hx ⊢
      rw [before_cons_of_ne hpa, after_cons_of_ne hpa]
      by_cases hxa : x = a
      · subst hxa
        have hne : x ≠ after l p := by
          intro h
          rcases after_mem_or_zero (l := l) (x := p) with h' | h'
          · exact h0 (by rw [← h', ← h]; exact mem_cons_self)
          · exact hal (h ▸ h')
        rw [if_neg hne, before_cons_self, before_cons_self]
      · rw [before_cons_of_ne hxa, before_cons_of_ne hxa]
        exact ih hndl h0l hpl ((mem_cons.mp hx).resolve_left hxa)

/-- Only the first node holds the list's outer predecessor, so another's is the same for any. -/
theorem before_of_ne_head (prev' : ℕ) (h : x ≠ l.headD 0) : before prev l x = before prev' l x := by
  cases l with
  | nil => rfl
  | cons a l =>
    rw [before_cons_of_ne (by simpa using h), before_cons_of_ne (by simpa using h)]

/-- The predecessors once a node is pushed: the old first node's is the new one. -/
theorem before_push (hx : x ∈ l) (ha : a ∉ l) (hnd : l.Nodup) :
    before 0 (a :: l) x = if x = l.headD 0 then a else before 0 l x := by
  have hxa : x ≠ a := fun h => ha (h ▸ hx)
  rw [before_cons_of_ne hxa]
  cases l with
  | nil => cases hx
  | cons b t =>
    by_cases hxb : x = b
    · subst hxb
      simp
    · rw [before_cons_of_ne hxb, before_cons_of_ne hxb, if_neg (by simpa using hxb)]

end PointerList
