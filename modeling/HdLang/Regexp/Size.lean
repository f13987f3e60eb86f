import HdLang.Regexp.Code
import HdLang.Regexp.Parsed
import HdLang.Search.Needle
import Mathlib.Tactic.Linarith

/-!
# The size that the limit tests

`program_size` holds a size above the limit at one more than the limit, and an alternation two below
that, since it takes the two instructions of the last branch off afterwards. So it computes `heldSize`
(`programSize_eq`), which is the written-out size if every alternation fits below (`heldSize_eq_iff`).
-/

namespace HdLang.Regexp

open Search (sub ok_bind sub_eq)

mutual

/-- The written-out size, with every alternation held at 9,999. -/
def heldSize : Node → ℕ
  | .empty => 0
  | .group body _ => heldSize body
  | .concat items => heldSizes items
  | .alternate branches => Nat.min (heldSizes branches + 2 * (branches.length - 1)) (maxProgram - 1)
  | .repeat body min none _ => if min = 0 then heldSize body + 2 else min * heldSize body + 1
  | .repeat body min (some high) _ => min * heldSize body + (high - min) * (heldSize body + 1)
  | .literal _ => 1
  | .anyChar => 1
  | .class _ _ => 1
  | .begin => 1
  | .end => 1

/-- The sum of the sizes. -/
def heldSizes : List Node → ℕ
  | [] => 0
  | item :: items => heldSize item + heldSizes items

end

mutual

/-- Every alternation that is written out at all has a size of at most 9,999. -/
def AlternationsFit : Node → Prop
  | .group body _ => AlternationsFit body
  | .concat items => AllAlternationsFit items
  | .alternate branches =>
    writtenSizes branches + 2 * (branches.length - 1) < maxProgram ∧ AllAlternationsFit branches
  | .repeat body _ max _ => max = some 0 ∨ AlternationsFit body
  | .empty => True
  | .literal _ => True
  | .anyChar => True
  | .class _ _ => True
  | .begin => True
  | .end => True

/-- So it is for every node. -/
def AllAlternationsFit : List Node → Prop
  | [] => True
  | node :: nodes => AlternationsFit node ∧ AllAlternationsFit nodes

end

/-! ### Held sizes and written-out sizes -/

mutual

theorem heldSize_le (node : Node) : heldSize node ≤ writtenSize node := by
  cases node with
  | group body index =>
    rw [heldSize, writtenSize]
    exact heldSize_le body
  | concat items =>
    rw [heldSize, writtenSize]
    exact heldSizes_le items
  | alternate branches =>
    rw [heldSize, writtenSize]
    exact le_trans (Nat.min_le_left _ _) (Nat.add_le_add_right (heldSizes_le branches) _)
  | «repeat» body min max greedy =>
    have hbody := heldSize_le body
    cases max with
    | none =>
      rw [heldSize, writtenSize]
      split
      · exact Nat.add_le_add_right hbody 2
      · exact Nat.add_le_add_right (Nat.mul_le_mul_left min hbody) 1
    | some high =>
      rw [heldSize, writtenSize]
      exact Nat.add_le_add (Nat.mul_le_mul_left min hbody)
        (Nat.mul_le_mul_left _ (Nat.add_le_add_right hbody 1))
  | empty => exact le_rfl
  | literal value => exact le_rfl
  | anyChar => exact le_rfl
  | «class» items negated => exact le_rfl
  | begin => exact le_rfl
  | «end» => exact le_rfl

theorem heldSizes_le (nodes : List Node) : heldSizes nodes ≤ writtenSizes nodes := by
  cases nodes with
  | nil => exact le_rfl
  | cons node nodes =>
    rw [heldSizes, writtenSizes]
    exact Nat.add_le_add (heldSize_le node) (heldSizes_le nodes)

end

mutual

/-- **The held size is the written-out size** exactly if every alternation fits. -/
theorem heldSize_eq_iff (node : Node) (h : WellFormed node) :
    heldSize node = writtenSize node ↔ AlternationsFit node := by
  cases node with
  | group body index =>
    rw [heldSize, writtenSize, AlternationsFit]
    exact heldSize_eq_iff body h.2
  | concat items =>
    rw [heldSize, writtenSize, AlternationsFit]
    exact heldSizes_eq_iff items h
  | alternate branches =>
    rw [heldSize, writtenSize, AlternationsFit, ← heldSizes_eq_iff branches h.2]
    have hle := heldSizes_le branches
    unfold maxProgram
    change min _ _ = _ ↔ _
    omega
  | «repeat» body min max greedy =>
    have hbody := heldSize_eq_iff body h.2
    have hle := heldSize_le body
    cases max with
    | none =>
      rw [heldSize, writtenSize, AlternationsFit, ← hbody]
      split
      · simp
      · next hmin => simp [hmin]
    | some high =>
      have hhigh : min ≤ high := h.1 high rfl
      rw [heldSize, writtenSize, AlternationsFit, ← hbody]
      have hsum : ∀ size, min * size + (high - min) * (size + 1) = high * size + (high - min) := by
        intro size
        obtain ⟨more, rfl⟩ := Nat.exists_eq_add_of_le hhigh
        rw [Nat.add_sub_cancel_left]
        ring
      rw [hsum, hsum, Nat.add_right_cancel_iff]
      by_cases hzero : high = 0
      · simp [hzero]
      · simp [hzero]
  | empty => simp [heldSize, writtenSize, AlternationsFit]
  | literal value => simp [heldSize, writtenSize, AlternationsFit]
  | anyChar => simp [heldSize, writtenSize, AlternationsFit]
  | «class» items negated => simp [heldSize, writtenSize, AlternationsFit]
  | begin => simp [heldSize, writtenSize, AlternationsFit]
  | «end» => simp [heldSize, writtenSize, AlternationsFit]

theorem heldSizes_eq_iff (nodes : List Node) (h : AllWellFormed nodes) :
    heldSizes nodes = writtenSizes nodes ↔ AllAlternationsFit nodes := by
  cases nodes with
  | nil => simp [heldSizes, writtenSizes, AllAlternationsFit]
  | cons node nodes =>
    rw [heldSizes, writtenSizes, AllAlternationsFit, ← heldSize_eq_iff node h.1,
      ← heldSizes_eq_iff nodes h.2]
    have hnode := heldSize_le node
    have hnodes := heldSizes_le nodes
    omega

end

/-! ### What `program_size` computes -/

/-- A size above the limit is held at one more than the limit. -/
theorem capped_eq (size : ℕ) : capped size = Nat.min size (maxProgram + 1) := by
  unfold capped
  change _ = min _ _
  split <;> omega

theorem scaled_eq (size count : ℕ) : scaled size count = Nat.min (size * count) (maxProgram + 1) := by
  unfold scaled
  change _ = min _ _
  by_cases hcount : count = 0
  · rw [if_pos hcount, hcount, Nat.mul_zero, Nat.zero_min]
  · have hdiv : maxProgram / count < size ↔ maxProgram < size * count :=
      Nat.div_lt_iff_lt_mul (Nat.pos_of_ne_zero hcount)
    rw [if_neg hcount]
    split
    · next hgreat =>
      rw [Nat.min_eq_right (hdiv.mp hgreat)]
    · next hsmall =>
      rw [Nat.min_eq_left]
      exact (Nat.le_of_not_lt (mt hdiv.mpr hsmall)).trans (Nat.le_succ _)

/-- Holding a factor changes nothing below the bound. -/
theorem min_mul_min {held bound : ℕ} (hbound : bound ≤ held) (size count : ℕ) :
    Nat.min (Nat.min size held * count) bound = Nat.min (size * count) bound := by
  change min (min size held * count) bound = min (size * count) bound
  obtain hle | hlt := Nat.lt_or_ge held size
  · rw [Nat.min_eq_right hle.le]
    cases count with
    | zero => rw [Nat.mul_zero, Nat.mul_zero]
    | succ count =>
      have hheld : bound ≤ held * (count + 1) :=
        hbound.trans (Nat.le_mul_of_pos_right _ (Nat.succ_pos _))
      have hsize : bound ≤ size * (count + 1) := hheld.trans (Nat.mul_le_mul_right _ hle.le)
      rw [Nat.min_eq_right hheld, Nat.min_eq_right hsize]
  · rw [Nat.min_eq_left hlt]

mutual

/-- **`program_size` computes the held size**, up to one more than the limit. -/
theorem programSize_eq (node : Node) (h : WellFormed node) :
    programSize node = .ok (Nat.min (heldSize node) (maxProgram + 1)) := by
  cases node with
  | group body index =>
    rw [programSize, heldSize]
    exact programSize_eq body h.2
  | concat items =>
    rw [programSize, heldSize, concatSize_eq items h 0 (Nat.zero_le _), Nat.zero_add]
  | alternate branches =>
    have hone : 1 ≤ branches.length := List.length_pos_iff.mpr h.1
    rw [programSize, heldSize, alternateSize_eq branches h.2 0 (Nat.zero_le _), ok_bind,
      sub_eq (show 2 ≤ min _ _ by unfold maxProgram; omega)]
    congr 1
    change min _ _ - 2 = min (min _ _) _
    unfold maxProgram
    omega
  | «repeat» body least most greedy =>
    rw [programSize, programSize_eq body h.2, ok_bind]
    cases most with
    | none =>
      rw [heldSize]
      dsimp only
      split
      · rw [capped_eq]
        refine congrArg Except.ok ?_
        change min (min _ _ + 2) _ = min _ _
        omega
      · rw [capped_eq, scaled_eq, min_mul_min le_rfl, Nat.mul_comm]
        refine congrArg Except.ok ?_
        change min (min _ _ + 1) _ = min _ _
        omega
    | some high =>
      have hsucc : Nat.min (heldSize body) (maxProgram + 1) + 1 =
          Nat.min (heldSize body + 1) (maxProgram + 1 + 1) := by
        change min _ _ + 1 = min _ _
        omega
      dsimp only
      rw [heldSize, sub_eq (h.1 high rfl), ok_bind, capped_eq, scaled_eq, scaled_eq, hsucc,
        min_mul_min le_rfl, min_mul_min (Nat.le_succ _), Nat.mul_comm, Nat.mul_comm (high - least)]
      refine congrArg Except.ok ?_
      change min (min _ _ + min _ _) _ = min _ _
      omega
  | empty => rfl
  | literal value => rfl
  | anyChar => rfl
  | «class» items negated => rfl
  | begin => rfl
  | «end» => rfl

theorem concatSize_eq (items : List Node) (h : AllWellFormed items) (total : ℕ)
    (htotal : total ≤ maxProgram + 1) :
    concatSize total items = .ok (Nat.min (total + heldSizes items) (maxProgram + 1)) := by
  cases items with
  | nil =>
    rw [concatSize, heldSizes, Nat.add_zero]
    exact congrArg Except.ok (Nat.min_eq_left htotal).symm
  | cons item items =>
    rw [concatSize, programSize_eq item h.1, ok_bind,
      concatSize_eq items h.2 _ (by rw [capped_eq]; exact Nat.min_le_right _ _), capped_eq, heldSizes]
    congr 1
    change min (min (total + min _ _) _ + _) _ = min _ _
    omega

theorem alternateSize_eq (branches : List Node) (h : AllWellFormed branches) (total : ℕ)
    (htotal : total ≤ maxProgram + 1) :
    alternateSize total branches =
      .ok (Nat.min (total + (heldSizes branches + 2 * branches.length)) (maxProgram + 1)) := by
  cases branches with
  | nil =>
    rw [alternateSize, heldSizes]
    exact congrArg Except.ok (Nat.min_eq_left htotal).symm
  | cons branch branches =>
    rw [alternateSize, programSize_eq branch h.1, ok_bind,
      alternateSize_eq branches h.2 _ (by rw [capped_eq]; exact Nat.min_le_right _ _), capped_eq,
      heldSizes, List.length_cons]
    congr 1
    change min (min (total + min _ _ + 2) _ + _) _ = min _ _
    omega

end

end HdLang.Regexp
