import Mathlib.Tactic.Common

/-!
# Remembered results

A walk that looks up what it gave before, and notes what it gives. `Computes f m c` says that from
a memo whose entries are values of `f`, the walk `m` gives `c` and leaves such a memo. The rules
follow how the walk is written, so one that computes from the values of its parts gives the same
with any such memo, the empty one among them.
-/

universe u

namespace Memo

open List

/-- The results so far, by what they are results of. -/
abbrev Walk (α : Type u) (β : Type u) (γ : Type u) : Type u := StateM (List (α × β)) γ

variable {α β γ δ : Type u} {f : α → β}

/-- The result of `a`: what was noted, or what the walk gives, which is then noted. -/
def remember [DecidableEq α] (a : α) (walk : Walk α β β) : Walk α β β := fun memo =>
  match memo.lookup a with
  | some b => (b, memo)
  | none => ((walk.run memo).1, (a, (walk.run memo).1) :: (walk.run memo).2)

/-- Every entry is a value of `f`. -/
def Sound (f : α → β) (memo : List (α × β)) : Prop := ∀ p ∈ memo, p.2 = f p.1

/-- From a sound memo the walk gives `c` and leaves a sound memo. -/
def Computes (f : α → β) (m : Walk α β γ) (c : γ) : Prop :=
  ∀ memo, Sound f memo → (m.run memo).1 = c ∧ Sound f (m.run memo).2

theorem sound_nil : Sound f [] := fun _ hp => absurd hp not_mem_nil

theorem Sound.lookup [DecidableEq α] {memo : List (α × β)} {a : α} {b : β} (h : Sound f memo)
    (hb : memo.lookup a = some b) : b = f a := by
  induction memo with
  | nil => exact absurd hb nofun
  | cons p memo ih =>
    rw [lookup_cons] at hb
    by_cases ha : a = p.1
    · rw [beq_iff_eq.mpr ha] at hb
      rw [← Option.some.inj hb, ha]
      exact h p mem_cons_self
    · rw [beq_false_of_ne ha] at hb
      exact ih (fun q hq => h q (mem_cons_of_mem p hq)) hb

namespace Computes

theorem pure {c : γ} : Computes f (Pure.pure c : Walk α β γ) c := fun _ h => ⟨rfl, h⟩

theorem bind {m : Walk α β γ} {k : γ → Walk α β δ} {c : γ} {d : δ} (hm : Computes f m c)
    (hk : Computes f (k c) d) : Computes f (m >>= k) d := by
  intro memo h
  obtain ⟨hc, hmemo⟩ := hm memo h
  have hrun : (m >>= k).run memo = (k c).run (m.run memo).2 := by
    rw [← hc]
    rfl
  rw [hrun]
  exact hk _ hmemo

/-- Looking a result up makes no difference to it. -/
theorem remember [DecidableEq α] {a : α} {walk : Walk α β β} (h : Computes f walk (f a)) :
    Computes f (Memo.remember a walk) (f a) := by
  intro memo hmemo
  obtain ⟨hb, hrest⟩ := h memo hmemo
  unfold Memo.remember
  show (match memo.lookup a with | some b => (b, memo) | none => _ : β × List (α × β)).1 = _ ∧
    Sound f (match memo.lookup a with | some b => (b, memo) | none => _ : β × List (α × β)).2
  cases hl : memo.lookup a with
  | some b => exact ⟨hmemo.lookup hl, hmemo⟩
  | none =>
    refine ⟨hb, fun p hp => ?_⟩
    obtain rfl | hp := mem_cons.mp hp
    · exact hb
    · exact hrest p hp

/-- What a remembered walk gives from the empty memo is what its parts make. -/
theorem remember_of [DecidableEq α] {a : α} {walk : Walk α β β} {b : β} (h : Computes f walk b)
    (ha : f a = ((Memo.remember a walk).run []).1) :
    Computes f (Memo.remember a walk) (f a) ∧ f a = b := by
  have hb : f a = b := ha.trans (h [] sound_nil).1
  exact ⟨remember (hb ▸ h), hb⟩

end Computes

end Memo
