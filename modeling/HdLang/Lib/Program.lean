import Mathlib.Tactic.Common

/-!
# Programs under interference

A `Program` is a tree of commands with a continuation for each reply. Several run on one state, one
command at a time in any order. `Rules` fixes what each side owes the other: `effect` is what a
command may do, `valid` holds of every state between commands, `rely` is what the others may do
between two commands of this program, and `guar` what each of its commands does. `Safe p Q s` says
that `p`, run from `s` with such interference, does only what `guar` allows, keeps `valid`, and ends
with `Q`. It is closed under interference, so that a system of safe programs is safe after each
step; the rules below build it from the parts of a program.
-/

/-- A program that calls commands, each of which is answered. -/
inductive Program (C : Type) (Reply : C → Type) (α : Type)
  | done (value : α)
  | call (c : C) (next : Reply c → Program C Reply α)

namespace Program

variable {C : Type} {Reply : C → Type} {α β : Type}

/-- The program `p` and then `f` on its value. -/
def bind (p : Program C Reply α) (f : α → Program C Reply β) : Program C Reply β :=
  match p with
  | done a => f a
  | call c next => call c fun r => (next r).bind f

instance : Monad (Program C Reply) where
  pure := done
  bind := bind

end Program

/-- What a program and the others that run with it owe one another. -/
structure Rules (σ C : Type) (Reply : C → Type) where
  effect : (c : C) → σ → Reply c → σ → Prop
  valid : σ → Prop
  rely : σ → σ → Prop
  guar : σ → σ → Prop
  rely_refl : ∀ s, rely s s
  rely_trans : ∀ {s t u}, valid s → valid t → rely s t → rely t u → rely s u

namespace Rules

variable {σ C : Type} {Reply : C → Type} (𝓡 : Rules σ C Reply)

/-- `P` holds now and stays whatever the others do. -/
def Always (P : σ → Prop) (s : σ) : Prop := ∀ t, 𝓡.valid t → 𝓡.rely s t → P t

/-- The others do not make `P` false. -/
def Stable (P : σ → Prop) : Prop := ∀ {s t}, 𝓡.valid s → 𝓡.valid t → 𝓡.rely s t → P s → P t

variable {α β ε : Type}

/-- `p` run from `s` among others keeps its side and ends with `Q`. -/
def Safe (Q : α → σ → Prop) : Program C Reply α → σ → Prop
  | .done a, s => 𝓡.Always (Q a) s
  | .call c next, s => ∀ t, 𝓡.valid t → 𝓡.rely s t → ∀ r u, 𝓡.effect c t r u →
    𝓡.valid u ∧ 𝓡.guar t u ∧ Safe Q (next r) u

variable {𝓡} {P P' : σ → Prop} {s t : σ}

namespace Always

theorem now (h : 𝓡.Always P s) (hs : 𝓡.valid s) : P s := h s hs (𝓡.rely_refl s)

theorem of_stable (hstable : 𝓡.Stable P) (hs : 𝓡.valid s) (h : P s) : 𝓡.Always P s :=
  fun _ ht hrely => hstable hs ht hrely h

section

variable (h : 𝓡.Always P s)
include h

theorem mono (hP : ∀ t, 𝓡.valid t → P t → P' t) : 𝓡.Always P' s :=
  fun t ht hrely => hP t ht (h t ht hrely)

theorem and (h' : 𝓡.Always P' s) : 𝓡.Always (fun t => P t ∧ P' t) s :=
  fun t ht hrely => ⟨h t ht hrely, h' t ht hrely⟩

theorem later (hs : 𝓡.valid s) (ht : 𝓡.valid t) (hrely : 𝓡.rely s t) :
    𝓡.Always P t :=
  fun u hu htu => h u hu (𝓡.rely_trans hs ht hrely htu)

theorem always (hs : 𝓡.valid s) : 𝓡.Always (𝓡.Always P) s := fun _ ht hrely => h.later hs ht hrely

end

end Always

namespace Safe

variable {Q : α → σ → Prop} {Q' : β → σ → Prop} {p : Program C Reply α}

theorem later (h : 𝓡.Safe Q p s) (hs : 𝓡.valid s) (ht : 𝓡.valid t) (hrely : 𝓡.rely s t) :
    𝓡.Safe Q p t := by
  cases p with
  | done a => exact Always.later h hs ht hrely
  | call c next => exact fun u hu htu => h u hu (𝓡.rely_trans hs ht hrely htu)

theorem mono {Q₁ : α → σ → Prop} (h : 𝓡.Safe Q p s) (hQ : ∀ a t, 𝓡.valid t → Q a t → Q₁ a t)
    : 𝓡.Safe Q₁ p s := by
  induction p generalizing s with
  | done a => exact Always.mono h (hQ a)
  | call c next ih =>
    intro t ht hrely r u heffect
    obtain ⟨hu, hguar, hnext⟩ := h t ht hrely r u heffect
    exact ⟨hu, hguar, ih r hnext⟩

/-- The rule of a command: what it may assume is what the others leave alone. -/
theorem call {c : C} {next : Reply c → Program C Reply α} (hP : 𝓡.Always P s)
    (hstep : ∀ t r u, 𝓡.valid t → P t → 𝓡.effect c t r u →
      𝓡.valid u ∧ 𝓡.guar t u ∧ 𝓡.Safe Q (next r) u) : 𝓡.Safe Q (.call c next) s :=
  fun t ht hrely r u heffect => hstep t r u ht (hP t ht hrely) heffect

theorem bind {f : α → Program C Reply β} (hs : 𝓡.valid s) (h : 𝓡.Safe Q p s)
    (hf : ∀ a t, 𝓡.valid t → 𝓡.Always (Q a) t → 𝓡.Safe Q' (f a) t) :
    𝓡.Safe Q' (p >>= f) s := by
  induction p generalizing s with
  | done a => exact hf a s hs h
  | call c next ih =>
    intro t ht hrely r u heffect
    obtain ⟨hu, hguar, hnext⟩ := h t ht hrely r u heffect
    exact ⟨hu, hguar, ih r hu hnext⟩

/-- The rule of a sequence whose first part may fail: an error is the error of the whole. -/
theorem tryBind {x : ExceptT ε (Program C Reply) α} {f : α → ExceptT ε (Program C Reply) β}
    {R : Except ε α → σ → Prop} {R' : Except ε β → σ → Prop} (hs : 𝓡.valid s) (h : 𝓡.Safe R x.run s)
    (herror : ∀ e t, 𝓡.valid t → R (.error e) t → R' (.error e) t)
    (hok : ∀ a t, 𝓡.valid t → 𝓡.Always (R (.ok a)) t → 𝓡.Safe R' (f a).run t) :
    𝓡.Safe R' (x >>= f).run s := by
  refine bind hs h fun a t ht hR => ?_
  cases a with
  | error e => exact hR.mono (herror e)
  | ok a => exact hok a t ht hR

end Safe

end Rules
