import Mathlib.Tactic.Common

/-!
# Outcomes

What computations that may fail come to, with a state and without.
-/

/-!
## The outcomes of state-and-failure computations

A computation of `StateT σ (Except ε)` either stops with an error or gives a result and a new
state. `Ensures E x Q s` says that `x` run from `s` stops with no error but those of `E`, and that
`Q` holds of what it gives otherwise: the weakest precondition of `Q`. With every error in `E` it is
partial correctness, with none total correctness. The rules are equivalences, one for each way
of building a computation, so that unfolding a program and rewriting with them reads its statements
off in order; `Ensures.mono` weakens a postcondition and is how a specification of a callee is used.
-/

section

universe u

variable {σ ε α β : Type u}

/-- `x` run from `s` stops with an error of `E` or gives a result and a new state with `Q`. -/
def Ensures (E : ε → Prop) (x : StateT σ (Except ε) α) (Q : α → σ → Prop) (s : σ) : Prop :=
  match x.run s with
  | .ok (r, s') => Q r s'
  | .error e => E e

namespace Ensures

variable {E : ε → Prop} {x : StateT σ (Except ε) α} {f : α → StateT σ (Except ε) β}
  {Q R : α → σ → Prop} {s : σ}

theorem mono (h : Ensures E x Q s) (hQ : ∀ r s', Q r s' → R r s') : Ensures E x R s := by
  unfold Ensures at *
  cases hx : x.run s with
  | error e => rw [hx] at h; exact h
  | ok p => rw [hx] at h; exact hQ p.1 p.2 h

theorem weaken {F : ε → Prop} (h : Ensures E x Q s) (hE : ∀ e, E e → F e) : Ensures F x Q s := by
  unfold Ensures at *
  cases hx : x.run s with
  | error e => rw [hx] at h; exact hE e h
  | ok p => rw [hx] at h; exact h

theorem and (h : Ensures E x Q s) (h' : Ensures E x R s) :
    Ensures E x (fun r s' => Q r s' ∧ R r s') s := by
  unfold Ensures at *
  cases hx : x.run s with
  | error e => rw [hx] at h; exact h
  | ok p => rw [hx] at h h'; exact ⟨h, h'⟩

theorem of_run {r : α} {s' : σ} (h : Ensures E x Q s) (hr : x.run s = .ok (r, s')) : Q r s' := by
  unfold Ensures at h
  rw [hr] at h
  exact h

/-- A computation that may stop with no error gives a result. -/
theorem exists_run (h : Ensures (fun _ => False) x Q s) : ∃ r s', x.run s = .ok (r, s') ∧ Q r s' := by
  unfold Ensures at h
  cases hx : x.run s with
  | error e => rw [hx] at h; exact h.elim
  | ok p => rw [hx] at h; exact ⟨p.1, p.2, rfl, h⟩

@[simp] theorem pure_iff {a : α} :
    Ensures E (pure a : StateT σ (Except ε) α) Q s ↔ Q a s := Iff.rfl

@[simp] theorem bind_iff {Q : β → σ → Prop} :
    Ensures E (x >>= f) Q s ↔ Ensures E x (fun r s' => Ensures E (f r) Q s') s := by
  have key : (x >>= f).run s = (x.run s >>= fun p => (f p.1).run p.2) := rfl
  unfold Ensures
  rw [key]
  cases hx : x.run s <;> rfl

@[simp] theorem get_iff {Q : σ → σ → Prop} :
    Ensures E (get : StateT σ (Except ε) σ) Q s ↔ Q s s := Iff.rfl

@[simp] theorem set_iff {s₁ : σ} {Q : PUnit → σ → Prop} :
    Ensures E (set s₁ : StateT σ (Except ε) PUnit) Q s ↔ Q ⟨⟩ s₁ := Iff.rfl

@[simp] theorem modify_iff {g : σ → σ} {Q : PUnit → σ → Prop} :
    Ensures E (modify g : StateT σ (Except ε) PUnit) Q s ↔ Q ⟨⟩ (g s) := Iff.rfl

@[simp] theorem throw_iff {e : ε} :
    Ensures E (throw e : StateT σ (Except ε) α) Q s ↔ E e := Iff.rfl

theorem ite_iff {c : Prop} [Decidable c] {y : StateT σ (Except ε) α} :
    Ensures E (if c then x else y) Q s ↔ (c → Ensures E x Q s) ∧ (¬c → Ensures E y Q s) := by
  by_cases h : c <;> simp [h]

-- elaboration never runs a program to see what `Ensures` says of it
attribute [irreducible] Ensures

end Ensures

end

/-!
## What a computation gives

`Gives P x` says that `x` fails or gives a result with `P`. The rules are those of weakest
preconditions, one for each way of building a computation; that of a loop over a list asks for an
invariant. `Yields P x` says the same of a computation with a state, from every state: what `P` says
is about the result alone.
-/

section

universe u

variable {ε α β : Type u}

/-- `x` fails, or its result has `P`. -/
def Gives (P : α → Prop) (x : Except ε α) : Prop := ∀ r, x = .ok r → P r

namespace Gives

variable {P Q : α → Prop} {R : β → Prop} {x : Except ε α} {f : α → Except ε β} {a : α} {e : ε}

theorem mono (h : Gives P x) (hPQ : ∀ a, P a → Q a) : Gives Q x := fun r hr => hPQ r (h r hr)

@[simp] theorem ok_iff : Gives P (.ok a : Except ε α) ↔ P a :=
  ⟨fun h => h a rfl, fun h _ hr => Except.ok.inj hr ▸ h⟩

@[simp] theorem pure_iff : Gives P (pure a : Except ε α) ↔ P a := ok_iff

@[simp] theorem error : Gives P (.error e : Except ε α) := fun _ h => nomatch h

@[simp] theorem throw : Gives P (throw e : Except ε α) := error

@[simp] theorem bind_iff : Gives R (x >>= f) ↔ Gives (fun a => Gives R (f a)) x := by
  cases x with
  | error e => exact ⟨fun _ _ h => (nomatch h), fun _ _ h => nomatch h⟩
  | ok a => exact (ok_iff (P := fun a => Gives R (f a))).symm

@[simp] theorem map_iff {g : α → β} : Gives R (g <$> x) ↔ Gives (fun a => R (g a)) x := by
  cases x with
  | error e => exact ⟨fun _ _ h => (nomatch h), fun _ _ h => nomatch h⟩
  | ok a => exact ok_iff.trans (ok_iff (P := fun a => R (g a))).symm

theorem ite {c : Prop} [Decidable c] {y : Except ε α} (hx : c → Gives P x) (hy : ¬c → Gives P y) :
    Gives P (if c then x else y) := by
  split
  · next h => exact hx h
  · next h => exact hy h

/-- A loop keeps an invariant that each of its steps keeps. -/
theorem foldlM {γ : Type u} {step : α → γ → Except ε α} {l : List γ}
    (h : ∀ a, P a → ∀ c ∈ l, Gives P (step a c)) (ha : P a) : Gives P (l.foldlM step a) := by
  induction l generalizing a with
  | nil => exact pure_iff.mpr ha
  | cons c l ih =>
    rw [List.foldlM_cons, bind_iff]
    refine (h a ha c List.mem_cons_self).mono fun b hb => ?_
    exact ih (fun b hb d hd => h b hb d (List.mem_cons_of_mem _ hd)) hb

end Gives

/-- Whatever the state, `x` fails, or its result has `P`. -/
def Yields {σ : Type u} (P : α → Prop) (x : StateT σ (Except ε) α) : Prop :=
  ∀ s, Gives (fun r => P r.1) (x.run s)

namespace Yields

variable {σ : Type u} {P : α → Prop} {R : β → Prop} {x : StateT σ (Except ε) α}
  {f : α → StateT σ (Except ε) β} {a : α} {e : ε}

theorem anything : Yields (fun _ => True) x := fun _ _ _ => trivial

theorem pure (h : P a) : Yields P (pure a : StateT σ (Except ε) α) := fun _ => Gives.pure_iff.mpr h

theorem throw : Yields P (throw e : StateT σ (Except ε) α) := fun _ => Gives.error

theorem bind (hx : Yields P x) (hf : ∀ a, P a → Yields R (f a)) : Yields R (x >>= f) := fun s => by
  rw [StateT.run_bind]
  exact Gives.bind_iff.mpr ((hx s).mono fun r hr => hf r.1 hr r.2)

theorem next (hf : ∀ a, Yields R (f a)) : Yields R (x >>= f) := anything.bind fun a _ => hf a

theorem ite {c : Prop} [Decidable c] {y : StateT σ (Except ε) α} (hx : Yields P x) (hy : Yields P y)
    : Yields P (if c then x else y) := by
  split
  · exact hx
  · exact hy

end Yields

end

/-!
## Computations that fail and go on

A computation of `ExceptT δ (StateT σ (Except ε))` may fail with a `δ`, and the state it made until then
stays: its caller may go on after the failure. An `ε` stops the whole run. `Attempts E x Q s` is the
weakest precondition of `Q`, which sees the failure or the result; the rules are those of `Ensures`.
-/

section

universe u

variable {σ δ ε α β : Type u}

/-- `x` run from `s` stops with an error of `E`, or ends in a state with `Q`. -/
def Attempts (E : ε → Prop) (x : ExceptT δ (StateT σ (Except ε)) α) (Q : Except δ α → σ → Prop)
    (s : σ) : Prop :=
  Ensures E x.run Q s

namespace Attempts

variable {E : ε → Prop} {x : ExceptT δ (StateT σ (Except ε)) α}
  {f : α → ExceptT δ (StateT σ (Except ε)) β} {Q R : Except δ α → σ → Prop} {s : σ}

theorem mono (h : Attempts E x Q s) (hQ : ∀ r s', Q r s' → R r s') : Attempts E x R s :=
  Ensures.mono h hQ

theorem of_run {r : Except δ α} {s' : σ} (h : Attempts E x Q s) (hr : x.run.run s = .ok (r, s')) :
    Q r s' :=
  Ensures.of_run h hr

@[simp] theorem pure_iff {a : α} :
    Attempts E (pure a : ExceptT δ (StateT σ (Except ε)) α) Q s ↔ Q (.ok a) s := Ensures.pure_iff

@[simp] theorem throw_iff {d : δ} :
    Attempts E (throw d : ExceptT δ (StateT σ (Except ε)) α) Q s ↔ Q (.error d) s :=
  Ensures.pure_iff

@[simp] theorem bind_iff {Q : Except δ β → σ → Prop} :
    Attempts E (x >>= f) Q s ↔ Attempts E x
      (fun r s' =>
        match r with
        | .ok a => Attempts E (f a) Q s'
        | .error d => Q (.error d) s') s := by
  have hrun : (x >>= f).run = x.run >>= fun r =>
      match r with
      | .ok a => (f a).run
      | .error d => pure (.error d) := rfl
  unfold Attempts
  rw [hrun, Ensures.bind_iff]
  constructor
  · intro h
    refine h.mono fun r s' hr => ?_
    cases r with
    | ok a => exact hr
    | error d =>
      change Ensures E (pure (Except.error d)) Q s' at hr
      change Q (Except.error d) s'
      exact Ensures.pure_iff.mp hr
  · intro h
    refine h.mono fun r s' hr => ?_
    cases r with
    | ok a => exact hr
    | error d =>
      change Q (Except.error d) s' at hr
      change Ensures E (pure (Except.error d)) Q s'
      exact Ensures.pure_iff.mpr hr

@[simp] theorem get_iff {Q : Except δ σ → σ → Prop} :
    Attempts E (get : ExceptT δ (StateT σ (Except ε)) σ) Q s ↔ Q (.ok s) s := by
  unfold Attempts
  change Ensures E (get >>= fun a => pure (Except.ok a)) Q s ↔ _
  rw [Ensures.bind_iff, Ensures.get_iff, Ensures.pure_iff]

@[simp] theorem set_iff {s₁ : σ} {Q : Except δ PUnit → σ → Prop} :
    Attempts E (set s₁ : ExceptT δ (StateT σ (Except ε)) PUnit) Q s ↔ Q (.ok ⟨⟩) s₁ := by
  unfold Attempts
  change Ensures E (set s₁ >>= fun a => pure (Except.ok a)) Q s ↔ _
  rw [Ensures.bind_iff, Ensures.set_iff, Ensures.pure_iff]

theorem lift_iff {y : Except ε α} {Q : Except δ α → σ → Prop} :
    Attempts E (liftM y : ExceptT δ (StateT σ (Except ε)) α) Q s ↔
      (∀ a, y = .ok a → Q (.ok a) s) ∧ ∀ e, y = .error e → E e := by
  unfold Attempts Ensures
  cases y with
  | ok a => exact ⟨fun h => ⟨fun b hb => Except.ok.inj hb ▸ h, fun e he => (nomatch he)⟩,
      fun h => h.1 a rfl⟩
  | error e => exact ⟨fun h => ⟨fun b hb => (nomatch hb), fun e' he => Except.error.inj he ▸ h⟩,
      fun h => h.2 e rfl⟩

-- elaboration never runs a program to see what `Attempts` says of it
attribute [irreducible] Attempts

end Attempts

end
