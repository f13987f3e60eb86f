import HdLang.Types.Subst

/-!
# Head matching

`match_ty` and `match_list` of `crates/hd_types/src/solver.rs`: an impl head, whose parameters are
owned by the impl, against a goal's type. What the rest of the development needs of a match is what
its outermost step says about the two types (`Covers`): unless the goal's type is open they are the
same constructor, under their `mut` markers.
-/

namespace HdLang.Types

open List

/-- The outcome of matching one impl head against a goal's type. -/
inductive M
  | yes
  | maybe
  | no
  deriving DecidableEq, Repr

def both : M → M → M
  | .no, _ => .no
  | _, .no => .no
  | .maybe, _ => .maybe
  | _, .maybe => .maybe
  | .yes, .yes => .yes

/-- The types that the impl's parameters are bound to so far. -/
abbrev Binds := List (Option Ty)

/-- A parameter of the impl against a type: the first arm of `match_ty`. -/
def bindParam (i : ℕ) (t : Ty) (binds : Binds) : M × Binds :=
  let binds := binds ++ List.replicate (i + 1 - binds.length) none
  match binds[i]?.join with
  | none => (.yes, binds.set i (some t))
  | some b =>
    if b = t then (.yes, binds)
    -- A bare goal variable learns the bound argument.
    else if t.isInfer then (.yes, binds)
    else if b.hasInfer || t.hasInfer then (.maybe, binds)
    else (.no, binds)

/-- The impl's own parameters of a function head's row, each against the goal's whole row. -/
def bindRow (owner : DefId) (row : Ty) (params : List ParamRef) (binds : Binds) : M × Binds :=
  (params.filter fun p => p.owner = owner).foldl
    (fun (acc, binds) p =>
      let (m, binds) := bindParam p.index row binds
      (both acc m, binds))
    (.yes, binds)

/-- The index of the impl parameter that a pattern is. -/
def ownParamIndex (owner : DefId) : Ty → Option ℕ
  | .param p => if p.owner = owner then some p.index else none
  | _ => none

theorem sizeOf_inputsTuple_le (params : List Ty) (inputs : Inputs) :
    sizeOf (Pool.inputsTuple params inputs) ≤ 1 + 1 + sizeOf params := by
  have happ : ∀ (l : List Ty) (last : Ty), sizeOf (l ++ [last]) = sizeOf l + sizeOf last + 1 := by
    intro l last
    induction l with
    | nil =>
      simp only [nil_append, List.cons.sizeOf_spec, List.nil.sizeOf_spec]
    | cons a l ih =>
      simp only [cons_append, List.cons.sizeOf_spec, ih]
      omega
  have hone : ∀ a : Ty, sizeOf a ≤ 1 + 1 + sizeOf [a] := by
    intro a
    simp only [List.cons.sizeOf_spec]
    omega
  have hplain : sizeOf (Ty.tuple params none) ≤ 1 + 1 + sizeOf params := by
    simp only [Ty.tuple.sizeOf_spec, Option.none.sizeOf_spec]
    omega
  cases inputs with
  | fixed => exact hplain
  | tuple =>
    match params with
    | [] => exact hplain
    | [a] => exact hone a
    | _ :: _ :: _ => exact hplain
  | rest =>
    rcases eq_nil_or_concat params with rfl | ⟨l, last, rfl⟩
    · exact hplain
    · have hlast : (l.concat last).getLast? = some last := by simp
      have htuple : Pool.inputsTuple (l.concat last) .rest =
          .tuple (l.concat last).dropLast (some last) := by
        unfold Pool.inputsTuple
        rw [hlast]
      rw [htuple, concat_eq_append, dropLast_concat, happ]
      simp only [Ty.tuple.sizeOf_spec, Option.some.sizeOf_spec]
      omega

mutual

def matchTy (owner : DefId) (pat t : Ty) (binds : Binds) : M × Binds :=
  match ownParamIndex owner pat with
  | some i => bindParam i t binds
  | none =>
    -- A pattern that mentions parameters is matched structurally even against itself, so that each
    -- parameter is bound.
    if pat = t ∧ pat.hasParam = false then (.yes, binds)
    else
      match t with
      | .poison => (.yes, binds)
      | .infer _ => (.maybe, binds)
      | t =>
        match pat with
        | .mut_ p => matchTy owner p t binds
        | pat =>
          match t with
          | .mut_ x => matchTy owner pat x binds
          | t => matchParts owner pat t binds
termination_by (sizeOf pat + sizeOf t, 1)

/-- The arms of `match_ty` on two constructors. -/
def matchParts (owner : DefId) (pat t : Ty) (binds : Binds) : M × Binds :=
  match pat, t with
  | .adt d₁ a₁, .adt d₂ a₂ =>
    if d₁ = d₂ then matchList owner a₁ a₂ binds else (.no, binds)
  | .ref p m₁ c₁, .ref x m₂ c₂ =>
    -- An impl for a reference covers only its own kind.
    if m₁ = m₂ ∧ c₁ = c₂ then matchTy owner p x binds else (.no, binds)
  | .tuple e₁ none, .tuple e₂ none => matchList owner e₁ e₂ binds
  | .tuple e₁ (some r₁), .tuple e₂ (some r₂) =>
    match matchList owner e₁ e₂ binds with
    | (.no, binds) => (.no, binds)
    | (r, binds) =>
      let (m, binds) := matchTy owner r₁ r₂ binds
      (both r m, binds)
  | .union a, .union b => matchList owner a b binds
  | .option p, .option x => matchTy owner p x binds
  | .fn p₁ r₁ w₁ s₁ i₁ d₁, .fn p₂ r₂ w₂ s₂ i₂ d₂ =>
    if s₁ = s₂ ∧ d₁ = d₂ ∧ (i₁ = i₂ ∨ i₁ = .tuple ∨ i₂ = .tuple) then
      let (inputs, binds) :=
        if i₁ = i₂ then matchList owner p₁ p₂ binds
        -- An inputs tuple of unknown arity matches the other side's whole inputs.
        else matchTy owner (Pool.inputsTuple p₁ i₁) (Pool.inputsTuple p₂ i₂) binds
      -- The row's parameters are bound first and the result after them, as the source evaluates.
      let (rows, binds) := bindRow owner (.row w₂) w₁.params binds
      let (result, binds) := matchTy owner r₁ r₂ binds
      (both (both inputs result) rows, binds)
    else (.no, binds)
  | .row w₁, .row w₂ =>
    match w₁.keys, w₁.params with
    | [], [p] =>
      if p.owner = owner then bindParam p.index (.row w₂) binds
      else if w₁ = w₂ then (.yes, binds)
      else (.no, binds)
    | _, _ => if w₁ = w₂ then (.yes, binds) else (.no, binds)
  | .traitValue d₁ a₁ _, .traitValue d₂ a₂ _ =>
    if d₁ = d₂ then matchList owner a₁ a₂ binds else (.no, binds)
  | pat, t => if pat = t then (.yes, binds) else (.no, binds)
termination_by (sizeOf pat + sizeOf t, 0)
decreasing_by
  all_goals simp_wf
  all_goals try omega
  all_goals
    have h₁ := sizeOf_inputsTuple_le p₁ i₁
    have h₂ := sizeOf_inputsTuple_le p₂ i₂
    have hpos : 0 < sizeOf i₁ := by cases i₁ <;> decide
    omega

def matchList (owner : DefId) (ps ts : List Ty) (binds : Binds) : M × Binds :=
  if ps.length = ts.length then matchEach owner ps ts .yes binds else (.no, binds)
termination_by (sizeOf ps + sizeOf ts, 1)

/-- The loop of `match_list`, which stops at the first pair that does not match. -/
def matchEach (owner : DefId) (ps ts : List Ty) (r : M) (binds : Binds) : M × Binds :=
  match ps, ts with
  | p :: ps, t :: ts =>
    let (m, binds) := matchTy owner p t binds
    match both r m with
    | .no => (.no, binds)
    | r => matchEach owner ps ts r binds
  | _, _ => (r, binds)
termination_by (sizeOf ps + sizeOf ts, 0)

end

/-! ### What a match says of the two types -/

/-- What the outermost step of a match asks of a head and a type. -/
inductive Covers (owner : DefId) : Ty → Ty → Prop
  | param {i : ℕ} {t : Ty} : Covers owner (.param ⟨owner, i⟩) t
  | same {t : Ty} : Covers owner t t
  | poison {pat : Ty} : Covers owner pat .poison
  | infer {pat : Ty} {v : ℕ} : Covers owner pat (.infer v)
  | markedHead {p t : Ty} (h : Covers owner p t) : Covers owner (.mut_ p) t
  | marked {pat x : Ty} (h : Covers owner pat x) : Covers owner pat (.mut_ x)
  | adt {d : DefId} {a₁ a₂ : List Ty} : Covers owner (.adt d a₁) (.adt d a₂)
  | traitValue {d : DefId} {a₁ a₂ : List Ty} {b₁ b₂ : List (DefId × Ty)} :
      Covers owner (.traitValue d a₁ b₁) (.traitValue d a₂ b₂)
  | ref {p x : Ty} {m c : Bool} : Covers owner (.ref p m c) (.ref x m c)
  | tuple {e₁ e₂ : List Ty} (h : e₁.length = e₂.length) :
      Covers owner (.tuple e₁ none) (.tuple e₂ none)
  | tupleRest {e₁ e₂ : List Ty} {r₁ r₂ : Ty} :
      Covers owner (.tuple e₁ (some r₁)) (.tuple e₂ (some r₂))
  | union {a b : List Ty} : Covers owner (.union a) (.union b)
  | option {p x : Ty} : Covers owner (.option p) (.option x)
  | fn {p₁ p₂ : List Ty} {r₁ r₂ : Ty} {w₁ w₂ : RowData Ty} {s : Bool} {i₁ i₂ : Inputs}
      {d : FnDeps} :
      Covers owner (.fn p₁ r₁ w₁ s i₁ d) (.fn p₂ r₂ w₂ s i₂ d)
  | row {w₁ w₂ : RowData Ty} : Covers owner (.row w₁) (.row w₂)

variable {owner : DefId} {pat t : Ty} {binds : Binds}

theorem length_of_matchList {ps ts : List Ty} (h : (matchList owner ps ts binds).1 ≠ .no) :
    ps.length = ts.length := by
  by_contra hlen
  rw [matchList, if_neg hlen] at h
  exact h rfl

theorem covers_of_matchParts (h : (matchParts owner pat t binds).1 ≠ .no) : Covers owner pat t := by
  unfold matchParts at h
  split at h
  · split at h
    · next heq =>
      subst heq
      exact .adt
    · exact absurd rfl h
  · split at h
    · next heq =>
      obtain ⟨rfl, rfl⟩ := heq
      exact .ref
    · exact absurd rfl h
  · exact .tuple (length_of_matchList h)
  · exact .tupleRest
  · exact .union
  · exact .option
  · split at h
    · next heq =>
      obtain ⟨rfl, rfl, _⟩ := heq
      exact .fn
    · exact absurd rfl h
  · exact .row
  · split at h
    · next heq =>
      subst heq
      exact .traitValue
    · exact absurd rfl h
  · split at h
    · next heq =>
      subst heq
      exact .same
    · exact absurd rfl h

/-- **A head that may match a type covers it.** -/
theorem covers_of_matchTy (owner : DefId) (pat t : Ty) (binds : Binds)
    (h : (matchTy owner pat t binds).1 ≠ .no) : Covers owner pat t := by
  unfold matchTy at h
  split at h
  · next i hi =>
    cases pat with
    | param p =>
      rw [ownParamIndex] at hi
      split at hi
      · next hown =>
        subst hown
        exact .param
      · cases hi
    | _ => cases hi
  · split at h
    · next heq =>
      obtain ⟨rfl, _⟩ := heq
      exact .same
    · split at h
      · exact .poison
      · exact .infer
      · split at h
        · exact .markedHead (covers_of_matchTy owner _ t binds h)
        · split at h
          · exact .marked (covers_of_matchTy owner pat _ binds h)
          · exact covers_of_matchParts h
termination_by sizeOf pat + sizeOf t

end HdLang.Types
