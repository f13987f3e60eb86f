import Mathlib.Data.List.Basic

/-!
# The first entry of each key

`firsts key l` keeps the first entry of each key. A property that depends on the key alone may be
asked for before or after (`firsts_filter`).
-/

universe u v

namespace Firsts

open List

variable {α : Type u} {κ : Type v} [DecidableEq κ] {key : α → κ} {seen : List κ} {l : List α}
  {a : α}

/-- The first entry of each key that was not seen before. -/
def firstsFrom (key : α → κ) : List κ → List α → List α
  | _, [] => []
  | seen, a :: l =>
    if key a ∈ seen then firstsFrom key seen l else a :: firstsFrom key (seen ++ [key a]) l

/-- The first entry of each key. -/
def firsts (key : α → κ) (l : List α) : List α := firstsFrom key [] l

/-- What was seen matters for the keys of the list alone. -/
theorem firstsFrom_congr {seen' : List κ} (h : ∀ a ∈ l, key a ∈ seen ↔ key a ∈ seen') :
    firstsFrom key seen l = firstsFrom key seen' l := by
  induction l generalizing seen seen' with
  | nil => rfl
  | cons b l ih =>
    have hb := h b mem_cons_self
    have hl := fun a ha => h a (mem_cons_of_mem b ha)
    rw [firstsFrom, firstsFrom, ih hl]
    refine if_congr hb rfl (congrArg _ (ih fun a ha => ?_))
    rw [mem_append, mem_append, hl a ha]

theorem firstsFrom_filter {p : α → Bool} (h : ∀ a ∈ l, ∀ b ∈ l, key a = key b → p a = p b) :
    (firstsFrom key seen l).filter p = firstsFrom key seen (l.filter p) := by
  induction l generalizing seen with
  | nil => rfl
  | cons b l ih =>
    have hl : ∀ a ∈ l, ∀ c ∈ l, key a = key c → p a = p c := fun a ha c hc =>
      h a (mem_cons_of_mem b ha) c (mem_cons_of_mem b hc)
    rw [firstsFrom]
    by_cases hb : p b = true
    · rw [filter_cons_of_pos hb, firstsFrom]
      split
      · exact ih hl
      · rw [filter_cons_of_pos hb, ih hl]
    · rw [filter_cons_of_neg hb]
      split
      · exact ih hl
      · rw [filter_cons_of_neg hb, ih hl]
        -- no entry that is left has the key
        refine firstsFrom_congr fun a ha => ?_
        obtain ⟨hmem, hpa⟩ := mem_filter.mp ha
        rw [mem_append, mem_singleton, or_iff_left]
        intro heq
        exact hb (h a (mem_cons_of_mem b hmem) b mem_cons_self heq ▸ hpa)

/-- **A property of the keys** may be asked for before or after. -/
theorem firsts_filter {p : α → Bool} (h : ∀ a ∈ l, ∀ b ∈ l, key a = key b → p a = p b) :
    (firsts key l).filter p = firsts key (l.filter p) :=
  firstsFrom_filter h

end Firsts
