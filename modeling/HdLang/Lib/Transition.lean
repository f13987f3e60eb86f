import Mathlib.Tactic.Common

/-!
# Labelled transition systems

A system is a relation `step s a t` between states under a label. `Run step P s t` says that `t` is
reached from `s` by steps each of which `P` allows in the state it leaves: with `P` always true it
is reachability, and a stronger `P` is an assumption on every step of a run. `Run.invariant` is the
induction over runs. `Trace step s as t` keeps the labels of the steps, `Trace.split` stops at one of
them, and `Takes` is one step on the way.
-/

universe u w

variable {σ : Type u} {α : Type w}

namespace Transition

/-- `t` is reached from `s` by steps that `P` allows. -/
inductive Run (step : σ → α → σ → Prop) (P : σ → α → Prop) : σ → σ → Prop
  | refl (s : σ) : Run step P s s
  | tail {s t u : σ} {a : α} (hrun : Run step P s t) (hP : P t a) (hstep : step t a u) :
    Run step P s u

namespace Run

variable {step : σ → α → σ → Prop} {P : σ → α → Prop} {s t : σ}

/-- **Induction over runs**: what holds at first and is kept by every step holds at the end. -/
theorem invariant {I : σ → Prop} (hrun : Run step P s t) (hinit : I s)
    (hkeep : ∀ {s a t}, I s → P s a → step s a t → I t) : I t := by
  induction hrun with
  | refl => exact hinit
  | tail _ hP hstep ih => exact hkeep ih hP hstep

theorem trans {u : σ} (hrun : Run step P s t) (hrun' : Run step P t u) : Run step P s u := by
  induction hrun' with
  | refl => exact hrun
  | tail _ hP hstep ih => exact Run.tail ih hP hstep

end Run

/-- `t` is reached from `s` by steps with these labels. -/
inductive Trace (step : σ → α → σ → Prop) : σ → List α → σ → Prop
  | nil (s : σ) : Trace step s [] s
  | cons {s t u : σ} {a : α} {as : List α} (hstep : step s a t) (htrace : Trace step t as u) :
    Trace step s (a :: as) u

/-- The trace from `s` to `u` takes a step from `t` to `t'` on its way, and then the steps `after`. -/
def Takes (step : σ → α → σ → Prop) (s : σ) (as : List α) (u t : σ) (a : α) (t' : σ)
    (after : List α) : Prop :=
  ∃ before, as = before ++ a :: after ∧ Trace step s before t ∧ step t a t' ∧ Trace step t' after u

namespace Trace

variable {step : σ → α → σ → Prop} {s t u : σ} {a : α} {as bs : List α}

theorem snoc (htrace : Trace step s as t) (hstep : step t a u) : Trace step s (as ++ [a]) u := by
  induction htrace with
  | nil => exact .cons hstep (.nil u)
  | cons hfirst _ ih => exact .cons hfirst (ih hstep)

theorem invariant {I : σ → Prop} (htrace : Trace step s as t) (hinit : I s)
    (hkeep : ∀ {s a t}, I s → step s a t → I t) : I t := by
  induction htrace with
  | nil => exact hinit
  | cons hstep _ ih => exact ih (hkeep hinit hstep)

/-- The states before and after a step of a trace. -/
theorem split (htrace : Trace step s (as ++ a :: bs) u) :
    ∃ t t', Trace step s as t ∧ step t a t' ∧ Trace step t' bs u := by
  induction as generalizing s with
  | nil =>
    cases htrace with
    | cons hstep hrest => exact ⟨s, _, .nil s, hstep, hrest⟩
  | cons b as ih =>
    cases htrace with
    | cons hstep hrest =>
      obtain ⟨t, t', hbefore, hmid, hafter⟩ := ih hrest
      exact ⟨t, t', .cons hstep hbefore, hmid, hafter⟩

/-- A trace from where `P` fails to where it holds has a step that makes it hold. -/
theorem flip {P : σ → Prop} (htrace : Trace step s as u) (hs : ¬P s) (hu : P u) :
    ∃ t a t' after, Takes step s as u t a t' after ∧ ¬P t ∧ P t' := by
  induction htrace with
  | nil => exact absurd hu hs
  | @cons s t u a as hstep hrest ih =>
    by_cases ht : P t
    · exact ⟨s, a, t, as, ⟨[], rfl, .nil s, hstep, hrest⟩, hs, ht⟩
    · obtain ⟨v, b, v', after, ⟨before, rfl, hbefore, hmid, hafter⟩, hv, hv'⟩ := ih ht hu
      exact ⟨v, b, v', after, ⟨a :: before, rfl, .cons hstep hbefore, hmid, hafter⟩, hv, hv'⟩

end Trace

end Transition
