import HdLang.Lib.Outcome

/-!
# Runs of the runtime's code

Why a run of hd code stops, and the arithmetic of its 32-bit unsigned types: an operation whose
result does not fit panics in a debug or test build and wraps in a release build
(`types.arith.checked`, `types.arith.release`).
-/

namespace HdLang

open Ensures

/-- The build profile of the program. -/
inductive Build
  | debug
  | release
  | test
  deriving DecidableEq, Repr

/-- Why a run stops with no result. -/
inductive Stop
  /-- A load or store reached a byte outside the heap. -/
  | outOfBounds
  /-- A runtime panic. -/
  | panic (category message : String)
  /-- A loop did not end in the turns it was given. -/
  | diverges
  deriving DecidableEq, Repr

/-- The number of values of `usize` and of `u32`. -/
def USIZE : ℕ := 4294967296

/-- The panic of checked arithmetic. -/
def overflow : Stop := .panic "integer-overflow" "integer overflow"

section Operators

variable {σ : Type} (build : Build)

/-- A result that does not fit: `wrapped` in a release build. -/
def unfit (wrapped : ℕ) : StateT σ (Except Stop) ℕ :=
  if build = .release then pure wrapped else throw overflow

/-- `a + b`. -/
def plus (a b : ℕ) : StateT σ (Except Stop) ℕ :=
  if a + b < USIZE then pure (a + b) else unfit build ((a + b) % USIZE)

/-- `a - b`. -/
def minus (a b : ℕ) : StateT σ (Except Stop) ℕ :=
  if b ≤ a then pure (a - b) else unfit build ((a + USIZE - b) % USIZE)

/-- `a * b`. -/
def times (a b : ℕ) : StateT σ (Except Stop) ℕ :=
  if a * b < USIZE then pure (a * b) else unfit build (a * b % USIZE)

end Operators

section Rules

variable {σ : Type} {E : Stop → Prop} {build : Build} {a b : ℕ} {Q : ℕ → σ → Prop} {s : σ}

theorem ensures_unfit {n : ℕ} (hwrap : build = .release → Q n s)
    (hpanic : build ≠ .release → E overflow) : Ensures E (unfit build n) Q s := by
  unfold unfit
  rw [ite_iff]
  exact ⟨fun h => pure_iff.mpr (hwrap h), fun h => throw_iff.mpr (hpanic h)⟩

theorem ensures_plus (hle : a + b < USIZE → Q (a + b) s)
    (hwrap : USIZE ≤ a + b → build = .release → Q ((a + b) % USIZE) s)
    (hpanic : USIZE ≤ a + b → build ≠ .release → E overflow) : Ensures E (plus build a b) Q s := by
  unfold plus
  rw [ite_iff]
  refine ⟨fun h => pure_iff.mpr (hle h), fun h => ?_⟩
  exact ensures_unfit (hwrap (Nat.le_of_not_lt h)) (hpanic (Nat.le_of_not_lt h))

theorem ensures_minus (hle : b ≤ a → Q (a - b) s)
    (hwrap : a < b → build = .release → Q ((a + USIZE - b) % USIZE) s)
    (hpanic : a < b → build ≠ .release → E overflow) : Ensures E (minus build a b) Q s := by
  unfold minus
  rw [ite_iff]
  refine ⟨fun h => pure_iff.mpr (hle h), fun h => ?_⟩
  exact ensures_unfit (hwrap (Nat.lt_of_not_le h)) (hpanic (Nat.lt_of_not_le h))

theorem ensures_times (hle : a * b < USIZE → Q (a * b) s)
    (hwrap : USIZE ≤ a * b → build = .release → Q (a * b % USIZE) s)
    (hpanic : USIZE ≤ a * b → build ≠ .release → E overflow) : Ensures E (times build a b) Q s := by
  unfold times
  rw [ite_iff]
  refine ⟨fun h => pure_iff.mpr (hle h), fun h => ?_⟩
  exact ensures_unfit (hwrap (Nat.le_of_not_lt h)) (hpanic (Nat.le_of_not_lt h))

theorem plus_eq (h : a + b < USIZE) :
    plus build a b = (pure (a + b) : StateT σ (Except Stop) ℕ) := if_pos h

theorem minus_eq (h : b ≤ a) :
    minus build a b = (pure (a - b) : StateT σ (Except Stop) ℕ) := if_pos h

theorem times_eq (h : a * b < USIZE) :
    times build a b = (pure (a * b) : StateT σ (Except Stop) ℕ) := if_pos h

end Rules

end HdLang
