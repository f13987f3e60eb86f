import HdLang.Lib.Outcome

/-!
# Loops

Loops given turns: the counting loop, and the loop that its body ends.
-/

/-!
## Counting loops

`scan` is the loop `while at < bound: body at; at += 1`, whose bound is read from the state at every
turn and whose body may return from the loop. It is given a number of turns; `ensures_scan` is its
rule: with an invariant of the index and the state under which the bound does not move, turns for the
indices that are left are enough.
-/

section

variable {σ ε α : Type} {E : ε → Prop}

/-- `while at < bound: body at; at += 1`: what the body returned, and the index after the loop. -/
def scan (stuck : ε) (bound : σ → ℕ) (body : ℕ → StateT σ (Except ε) (Option α)) :
    (turns index : ℕ) → StateT σ (Except ε) (Option α × ℕ)
  | 0, _ => throw stuck
  | turns + 1, index => do
    if index < bound (← get) then
      match ← body index with
      | some result => pure (some result, index + 1)
      | none => scan stuck bound body turns (index + 1)
    else pure (none, index)

theorem ensures_scan {stuck : ε} {bound : σ → ℕ} {body : ℕ → StateT σ (Except ε) (Option α)}
    {Q : Option α × ℕ → σ → Prop} {n : ℕ} (Inv : ℕ → σ → Prop)
    (hbound : ∀ i s, Inv i s → bound s = n)
    (hbody : ∀ i s, i < n → Inv i s → Ensures E (body i)
      (fun r s' => (∀ a, r = some a → Q (some a, i + 1) s') ∧ (r = none → Inv (i + 1) s')) s)
    (hdone : ∀ s, Inv n s → Q (none, n) s) {turns i : ℕ} {s : σ} (hturns : n < turns + i)
    (hi : i ≤ n) (hs : Inv i s) : Ensures E (scan stuck bound body turns i) Q s := by
  induction turns generalizing i s with
  | zero => omega
  | succ turns ih =>
    simp only [scan, Ensures.bind_iff, Ensures.get_iff, hbound i s hs]
    rw [Ensures.ite_iff]
    refine ⟨fun hlt => ?_, fun hge => ?_⟩
    · rw [Ensures.bind_iff]
      refine (hbody i s hlt hs).mono fun r s' hr => ?_
      cases r with
      | some a => exact Ensures.pure_iff.mpr (hr.1 a rfl)
      | none => exact ih (by omega) hlt (hr.2 rfl)
    · obtain rfl : i = n := by omega
      exact Ensures.pure_iff.mpr (hdone s hs)

end

/-!
## Loops given turns

`turning` runs the body of a loop until it breaks with a result. It is given a number of turns;
`turning_ends` is its rule: with an invariant, and a measure that every turn makes less, more turns than
the measure are enough, and the result has what the body promises of it.
-/

section

universe u v w

variable {σ : Type u} {ε : Type v} {β : Type w}

/-- `while true: body`, from a state: the body goes on with a state or breaks with a result. -/
def turning (stuck : ε) (body : σ → Except ε (σ ⊕ β)) : (turns : ℕ) → σ → Except ε β
  | 0, _ => .error stuck
  | turns + 1, s =>
    match body s with
    | .error e => .error e
    | .ok (.inl s') => turning stuck body turns s'
    | .ok (.inr result) => .ok result

theorem turning_ends {stuck : ε} {body : σ → Except ε (σ ⊕ β)} (Inv : σ → Prop) (Q : β → Prop)
    (measure : σ → ℕ)
    (hbody : ∀ s, Inv s → ∃ r, body s = .ok r ∧
      (∀ s', r = .inl s' → Inv s' ∧ measure s' < measure s) ∧ ∀ b, r = .inr b → Q b) {turns : ℕ}
    {s : σ} (hs : Inv s) (hturns : measure s < turns) :
    ∃ b, turning stuck body turns s = .ok b ∧ Q b := by
  induction turns generalizing s with
  | zero => omega
  | succ turns ih =>
    obtain ⟨r, hr, hgo, hbreak⟩ := hbody s hs
    rw [turning, hr]
    cases r with
    | inl s' =>
      obtain ⟨hinv, hless⟩ := hgo s' rfl
      exact ih hinv (by omega)
    | inr b => exact ⟨b, rfl, hbreak b rfl⟩

end
