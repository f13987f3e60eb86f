import HdLang.Wasm.ZeroReleases
import HdLang.Lib.Dataflow
import Mathlib.Algebra.Order.BigOperators.Group.Finset

/-!
# The lattice of fact rows

Rows meet by intersection; a lower row knows less. A transfer keeps the order, and whether it panics
does not depend on the row (`zeroAfter_rel`): so a block that panics does so on whatever facts reach
it. `decideBlock` makes the transfers of its block (`decideBlock_transfer`).
-/

namespace HdLang.Wasm

open Structured BitVec Bool List

variable {words : ℕ}

/-! ### Rows -/

namespace Row

theorem ext {a b : Row words} (h : ∀ i (hi : i < words), a.words[i] = b.words[i]) : a = b := by
  cases a
  cases b
  congr 1
  exact Vector.ext h

instance : Min (Row words) := ⟨meet⟩

theorem inf_word (a b : Row words) {i : ℕ} (hi : i < words) :
    (a ⊓ b).words[i] = a.words[i] &&& b.words[i] := Vector.getElem_zipWith hi

instance : SemilatticeInf (Row words) :=
  SemilatticeInf.mk'
    (fun a b => ext fun i hi => by rw [inf_word, inf_word, BitVec.and_comm])
    (fun a b c => ext fun i hi => by simp only [inf_word, BitVec.and_assoc])
    (fun a => ext fun i hi => by rw [inf_word, BitVec.and_self])

@[simp] theorem meet_eq (a b : Row words) : a.meet b = a ⊓ b := rfl

/-- A row is below another when each bit of it is one of the other. -/
theorem le_iff {a b : Row words} :
    a ≤ b ↔ ∀ i (hi : i < words) j, a.words[i].getLsbD j = true → b.words[i].getLsbD j = true := by
  rw [← inf_eq_left]
  constructor
  · intro h i hi j hj
    rw [← h, inf_word, getLsbD_and, and_eq_true] at hj
    exact hj.2
  · intro h
    refine ext fun i hi => eq_of_getLsbD_eq fun j _ => ?_
    rw [inf_word, getLsbD_and, and_eq_left_iff_imp]
    exact h i hi j

/-- How much a row can still lose. -/
def weight (k : Row words) : ℕ := ∑ i : Fin words, k.words[i].toNat

theorem word_inf_le (a b : Row words) (i : Fin words) :
    (a ⊓ b).words[i].toNat ≤ a.words[i].toNat := by
  rw [Fin.getElem_fin, inf_word, toNat_and]
  exact Nat.and_le_left

theorem weight_inf_lt {a b : Row words} (h : a ⊓ b ≠ a) : (a ⊓ b).weight < a.weight := by
  have hne : ∃ i : Fin words, (a ⊓ b).words[i] ≠ a.words[i] := by
    by_contra hall
    push Not at hall
    exact h (ext fun i hi => hall ⟨i, hi⟩)
  obtain ⟨i, hi⟩ := hne
  refine Finset.sum_lt_sum (fun i _ => word_inf_le a b i) ⟨i, Finset.mem_univ i, ?_⟩
  exact lt_of_le_of_ne (word_inf_le a b i) fun h => hi (eq_of_toNat_eq h)

end Row

/-! ### Transfers

`p` is why the rows are in order: with `False` for it the lemmas say that whether a computation
panics does not depend on the row.
-/

section Transfers

variable {p : Prop} {k k' : Row words}

theorem bind_rel {α β γ δ : Type} {R : α → β → Prop} {S : γ → δ → Prop} {x : Option α}
    {y : Option β} {f : α → Option γ} {g : β → Option δ} (h : Option.Rel R x y)
    (hfg : ∀ a b, R a b → Option.Rel S (f a) (g b)) : Option.Rel S (x >>= f) (y >>= g) := by
  cases h with
  | some hab => exact hfg _ _ hab
  | none => exact .none

section

variable (hle : p → k ≤ k')
include hle

theorem zeroLocal_rel (l : ℕ) :
    Option.Rel (fun z z' => p → z = true → z' = true) (zeroLocal k l) (zeroLocal k' l) := by
  unfold zeroLocal
  by_cases hl : l / 64 < words
  · rw [Vector.getElem?_eq_getElem hl, Vector.getElem?_eq_getElem hl]
    exact .some fun hp => Row.le_iff.mp (hle hp) _ hl _
  · rw [Vector.getElem?_eq_none (by omega), Vector.getElem?_eq_none (by omega)]
    exact .none

theorem pushesZero_rel (ins : Ins) :
    Option.Rel (fun z z' => p → z = true → z' = true) (pushesZero ins k) (pushesZero ins k') := by
  unfold pushesZero
  split
  case h_5 l => exact zeroLocal_rel hle l
  all_goals exact .some fun _ h => h

theorem teesZero_rel (ins : Ins) :
    Option.Rel (fun z z' => p → z = true → z' = true) (teesZero ins k) (teesZero ins k') := by
  unfold teesZero
  split
  · exact zeroLocal_rel hle _
  · exact .some fun _ h => h

theorem storesZero_rel (body : List Ins) (at_ : ℕ) :
    Option.Rel (fun z z' => p → z = true → z' = true) (storesZero body k at_)
      (storesZero body k' at_) := by
  cases at_ with
  | zero => exact .some fun _ h => h
  | succ before =>
    refine bind_rel (R := Eq) (by cases body[before]? <;> constructor; rfl) ?_
    rintro ins _ rfl
    refine bind_rel (pushesZero_rel hle ins) fun pushed pushed' hpushed => ?_
    refine bind_rel (teesZero_rel hle ins) fun teed teed' hteed => .some fun hp h => ?_
    rcases or_eq_true_iff.mp h with h | h
    · exact or_eq_true_iff.mpr (.inl (hpushed hp h))
    · exact or_eq_true_iff.mpr (.inr (hteed hp h))

end

/-- The bits of a word after a store of one of them. -/
theorem getLsbD_put (word : BitVec 64) (z : Bool) {m : ℕ} (hm : m < 64) (j : ℕ) :
    (if z then word ||| 1#64 <<< m else word &&& ~~~(1#64 <<< m)).getLsbD j =
      if j = m then z else word.getLsbD j := by
  rw [← twoPow_eq]
  have hout : 64 ≤ j → word.getLsbD j = false := fun h => getLsbD_of_ge word j h
  cases z
  all_goals
    simp only [reduceIte, false_eq_true, getLsbD_or, getLsbD_and, getLsbD_not, getLsbD_twoPow]
    by_cases hj : j = m
    · simp [hj, hm]
    · by_cases hlt : j < 64
      · simp [hj, Ne.symm hj, hlt]
      · simp [hj, Ne.symm hj, hout (by omega)]

theorem setZero_rel (hle : p → k ≤ k') {z z' : Bool} (hz : p → z = true → z' = true) (l : ℕ) :
    Option.Rel (fun a b => p → a ≤ b) (setZero k l z) (setZero k' l z') := by
  unfold setZero
  split
  · next hl =>
    refine .some fun hp => Row.le_iff.mpr fun i hi j => ?_
    simp only [Vector.getElem_set]
    split
    · rw [getLsbD_put _ _ (Nat.mod_lt l (by decide)), getLsbD_put _ _ (Nat.mod_lt l (by decide))]
      split
      · exact hz hp
      · exact Row.le_iff.mp (hle hp) _ hl j
    · exact Row.le_iff.mp (hle hp) i hi j
  · exact .none

/-- **A transfer keeps the order of rows**, and panics on all of them or on none. -/
theorem zeroAfter_rel (hle : p → k ≤ k') (body : List Ins) (at_ : ℕ) :
    Option.Rel (fun a b => p → a ≤ b) (zeroAfter body at_ k) (zeroAfter body at_ k') := by
  refine bind_rel (R := Eq) (by cases body[at_]? <;> constructor; rfl) ?_
  rintro ins _ rfl
  split
  · exact bind_rel (storesZero_rel hle body at_) fun z z' hz => setZero_rel hle hz _
  · exact bind_rel (storesZero_rel hle body at_) fun z z' hz => setZero_rel hle hz _
  · exact .some fun _ => le_rfl
  · exact .some hle

theorem transfer_rel (hle : p → k ≤ k') (body : List Ins) (start stop : ℕ) :
    Option.Rel (fun a b => p → a ≤ b) (transfer body start stop k) (transfer body start stop k') := by
  unfold transfer
  generalize range' start (stop - start) = places
  induction places generalizing k k' with
  | nil => exact .some hle
  | cons at_ places ih =>
    rw [foldlM_cons, foldlM_cons]
    exact bind_rel (zeroAfter_rel hle body at_) fun a b hab => ih hab

end Transfers

/-! ### Decisions -/

/-- Deciding a block carries the facts to its end. -/
theorem decideBlock_transfer {f : Func} {start stop : ℕ} {known : Row words} {gone : List Bool}
    {releaseWidth : Ins → Option ℕ} {r : Row words × List Bool}
    (h : decideBlock f start stop known gone releaseWidth = some r) :
    transfer f.body start stop known = some r.1 := by
  unfold decideBlock at h
  unfold transfer
  revert h
  generalize range' start (stop - start) = places
  intro h
  induction places generalizing known gone with
  | nil =>
    rw [foldlM_nil] at h
    cases h
    rfl
  | cons at_ places ih =>
    rw [foldlM_cons] at h ⊢
    cases hdecide : decideAt f releaseWidth at_ known gone with
    | none => simp [hdecide] at h
    | some marks =>
      cases hafter : zeroAfter f.body at_ known with
      | none => simp [hdecide, hafter] at h
      | some after =>
        simp only [hdecide, hafter, Option.bind_eq_bind, Option.bind_some] at h ⊢
        exact ih h

end HdLang.Wasm
