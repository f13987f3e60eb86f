import HdLang.Lib.Graphs
import HdLang.Types.Copying

/-!
# What keeps a type from being copied

The parts that a type holds by value, and what the move checker finds of them: `blocker` ends
(`blocker_ends`), and finds a part that is not copied exactly if one is under at most 32 nominal
types (`blocker_finds`, `blocker_misses`).
-/

namespace HdLang.Types

open Trails List Option

/-! ### Lists of searches -/

section Search

variable {α β : Type} {f : α → Option (Option β)} {l : List α}

theorem findSomeM?_none (h : l.findSomeM? f = some none) : ∀ a ∈ l, f a = some none := by
  induction l with
  | nil => exact fun _ hmem => (nomatch hmem)
  | cons a l ih =>
    rw [List.findSomeM?] at h
    cases ha : f a with
    | none => rw [ha] at h; exact nomatch h
    | some found =>
      rw [ha] at h
      cases found with
      | some b => exact nomatch some.inj h
      | none =>
        intro other hmem
        rcases mem_cons.mp hmem with rfl | hmem
        · exact ha
        · exact ih h other hmem

theorem findSomeM?_some {b : β} (h : l.findSomeM? f = some (some b)) :
    ∃ a ∈ l, f a = some (some b) := by
  induction l with
  | nil => exact nomatch some.inj h
  | cons a l ih =>
    rw [List.findSomeM?] at h
    cases ha : f a with
    | none => rw [ha] at h; exact nomatch h
    | some found =>
      rw [ha] at h
      cases found with
      | some c => exact ⟨a, mem_cons_self, ha.trans h⟩
      | none =>
        obtain ⟨other, hmem, hother⟩ := ih h
        exact ⟨other, mem_cons_of_mem _ hmem, hother⟩

theorem findSomeM?_isSome (h : ∀ a ∈ l, (f a).isSome) : (l.findSomeM? f).isSome := by
  induction l with
  | nil => rfl
  | cons a l ih =>
    rw [List.findSomeM?]
    obtain ⟨found, ha⟩ := isSome_iff_exists.mp (h a mem_cons_self)
    rw [ha]
    cases found with
    | some b => rfl
    | none => exact ih fun other hmem => h other (mem_cons_of_mem _ hmem)

theorem findSomeM?_singleton (a : α) : [a].findSomeM? f = f a := by
  rw [List.findSomeM?]
  cases f a with
  | none => rfl
  | some found => cases found <;> rfl

end Search

theorem Ty.mem_children_of_inPlace {t c : Ty} (h : c ∈ t.inPlace) : c ∈ t.children := by
  cases t with
  | tuple elems rest => exact h
  | union members => exact h
  | option i => exact h
  | mut_ i => exact h
  | _ => exact nomatch h

namespace Items

variable {cx : Items} {t u c : Ty} {S seen : List Ty} {fuel : ℕ}

/-! ### Parts -/

/-- A type that is written in place in `t`. -/
def Near (t c : Ty) : Prop := c ∈ t.inPlace

/-- The types of the members of `t`, which the walks go into. -/
def innerTypes (cx : Items) : Ty → List Ty
  | .adt def_ args =>
    match cx.copyDecl def_ with
    | .members types => cx.memberTypes def_ args types
    | _ => []
  | _ => []

/-- The type of a member of `t`. -/
def Inner (cx : Items) (t c : Ty) : Prop := c ∈ cx.innerTypes t

variable {def_ : DefId} {types : List Ty}

theorem innerTypes_eq {args : List Ty} (h : cx.copyDecl def_ = .members types) :
    cx.innerTypes (.adt def_ args) = cx.memberTypes def_ args types := by
  rw [innerTypes, h]

theorem inner_iff : cx.Inner t c ↔ ∃ def_ args types, t = .adt def_ args ∧
    cx.copyDecl def_ = .members types ∧ c ∈ cx.memberTypes def_ args types := by
  constructor
  · intro h
    unfold Inner innerTypes at h
    split at h
    · next def_ args =>
      split at h
      · next types hdecl => exact ⟨def_, args, types, rfl, hdecl, h⟩
      · exact nomatch h
    · exact nomatch h
  · rintro ⟨def_, args, types, rfl, hdecl, h⟩
    rw [Inner, innerTypes_eq hdecl]
    exact h

/-- The walks go from `t` to `u`, wherever that ends. -/
abbrev Part (cx : Items) : Ty → Ty → Prop := Reach Near (Inner cx)

/-- A way of the walks from `t` to `u`, by the nominal types they are in. -/
abbrev Way (cx : Items) : List Ty → Ty → List Ty → Ty → Prop := Trail Near (Inner cx)

/-- The types whose values a value of `def_` holds, a newtype's base among them. -/
def declared (cx : Items) (def_ : DefId) : List Ty :=
  match (cx.item def_).map Item.data with
  | some (.data fields) => fields
  | some (.enum shared variants) => shared ++ variants.flatten
  | some (.newtype base) => [base]
  | _ => []

/-- A value of `t` holds a value of `c`. -/
def Holding (cx : Items) (t c : Ty) : Prop :=
  c ∈ t.inPlace ∨ ∃ def_ args, t = .adt def_ args ∧ c ∈ cx.memberTypes def_ args (cx.declared def_)

/-- A part of `t` held by value. -/
def Held (cx : Items) : Ty → Ty → Prop := Relation.ReflTransGen cx.Holding

/-- A local mutable reference. -/
def LocalMut (t : Ty) : Prop := ∃ inner, t = .ref inner true false

/-- A type that opted out of `Copy`. -/
def OptedOut (cx : Items) (t : Ty) : Prop :=
  ∃ def_ args item, t = .adt def_ args ∧ cx.item def_ = some item ∧ item.notCopy = true

/-- A type parameter without a `Copy` bound. -/
def Unbound (cx : Items) (p : ParamRef) : Prop :=
  Ty.param p ∈ cx.relaxed ∨ cx.paramCopies p = false

/-- A part that is not copied. -/
def Blocks (cx : Items) (t : Ty) : Prop :=
  LocalMut t ∨ cx.OptedOut t ∨ ∃ p, t = .param p ∧ cx.Unbound p

/-- The walks come to no projection and no inference variable. -/
def Plain (cx : Items) (t : Ty) : Prop :=
  ∀ u, cx.Part t u → (∀ a b c d, u ≠ .assoc a b c d) ∧ ∀ v, u ≠ .infer v

theorem Plain.near (h : cx.Plain t) (hc : c ∈ t.inPlace) : cx.Plain c :=
  fun u hu => h u (.head (.inl hc) hu)

theorem Plain.inner (h : cx.Plain t) (hc : cx.Inner t c) : cx.Plain c :=
  fun u hu => h u (.head (.inr hc) hu)

theorem copyDecl_notCopy_iff :
    cx.copyDecl def_ = .notCopy ↔ ∃ item, cx.item def_ = some item ∧ item.notCopy = true := by
  unfold copyDecl
  cases cx.item def_ with
  | none => exact ⟨fun h => (nomatch h), fun ⟨_, h, _⟩ => nomatch h⟩
  | some item =>
    rw [map_some, getD_some, Item.copyDecl]
    refine ⟨fun h => ⟨item, rfl, ?_⟩, fun ⟨_, h, hnot⟩ => ?_⟩
    · by_contra hnot
      rw [if_neg hnot] at h
      split at h <;> exact nomatch h
    · obtain rfl := some.inj h
      exact if_pos hnot

theorem declared_of_members (h : cx.copyDecl def_ = .members types) : cx.declared def_ = types := by
  unfold copyDecl at h
  unfold declared
  cases hitem : cx.item def_ with
  | none => rw [hitem] at h; exact nomatch h
  | some item =>
    rw [hitem, map_some, getD_some, Item.copyDecl] at h
    split at h
    · exact nomatch h
    · rw [map_some]
      split at h
      · next fields hdata => rw [hdata]; exact CopyDecl.members.inj h
      · next shared variants hdata => rw [hdata]; exact CopyDecl.members.inj h
      · exact nomatch h

theorem Part.held (h : cx.Part t u) : cx.Held t u := by
  induction h with
  | refl => exact .refl
  | tail _ hstep ih =>
    refine ih.tail ?_
    rcases hstep with hnear | hinner
    · exact .inl hnear
    · obtain ⟨def_, args, types, rfl, hdecl, hmem⟩ := inner_iff.mp hinner
      exact .inr ⟨def_, args, rfl, (declared_of_members hdecl).symm ▸ hmem⟩

/-! ### What `blocker` finds -/

/-- The nominal types that a walk is in. -/
def Entered (cx : Items) (t : Ty) : Prop :=
  ∃ def_ args types, t = .adt def_ args ∧ cx.copyDecl def_ = .members types

theorem Entered.not_blocks (h : cx.Entered t) : ¬cx.Blocks t := by
  obtain ⟨def_, args, types, rfl, hdecl⟩ := h
  rintro (⟨_, h⟩ | ⟨_, _, item, h, hitem, hnot⟩ | ⟨_, h, _⟩)
  · exact nomatch h
  · obtain ⟨rfl, rfl⟩ := Ty.adt.inj h
    rw [copyDecl_notCopy_iff.mpr ⟨item, hitem, hnot⟩] at hdecl
    exact nomatch hdecl
  · exact nomatch h

theorem Entered.inPlace (h : cx.Entered t) : t.inPlace = [] := by
  obtain ⟨def_, args, types, rfl, -⟩ := h
  rfl

theorem not_inner (h : ∀ def_ args types, t = .adt def_ args → cx.copyDecl def_ ≠ .members types) :
    ¬cx.Inner t c := by
  intro hinner
  obtain ⟨def_, args, types, heq, hdecl, -⟩ := inner_iff.mp hinner
  exact h def_ args types heq hdecl

/-- What `blocker` does at a type: it leaves it, goes into it, looks at what is in place in it, or
finds it. -/
inductive Looks (cx : Items) (fuel : ℕ) (seen : List Ty) (t : Ty) : Option (Option Ty) → Prop
  | leaves (h : t ∈ seen ∨ seen.length > 32) : Looks cx fuel seen t (some none)
  | enters (hnew : t ∉ seen) (hroom : seen.length ≤ 32) (hentered : cx.Entered t) :
    Looks cx fuel seen t ((cx.innerTypes t).findSomeM? (cx.blocker fuel (t :: seen)))
  | passes (hinner : ∀ c, ¬cx.Inner t c) (hclear : ¬cx.Blocks t) :
    Looks cx fuel seen t (t.inPlace.findSomeM? (cx.blocker fuel seen))
  | finds (hroom : seen.length ≤ 32) (hblocks : cx.Blocks t) : Looks cx fuel seen t (some (some t))

theorem Looks.of_eq {r r' : Option (Option Ty)} (h : Looks cx fuel seen t r') (heq : r = r') :
    Looks cx fuel seen t r := heq ▸ h

theorem blocker_adt {def_ : ℕ} {args : List Ty}
    (hcut : ¬(Ty.adt def_ args ∈ seen ∨ seen.length > 32)) :
    cx.blocker (fuel + 1) seen (.adt def_ args) =
      match cx.copyDecl def_ with
      | .copies => some none
      | .notCopy => some (some (.adt def_ args))
      | .members types =>
        (cx.memberTypes def_ args types).findSomeM? (cx.blocker fuel (.adt def_ args :: seen)) := by
  rw [copyDecl]
  refine (if_neg hcut).trans ?_
  cases cx.item def_ <;> rfl

variable (cx fuel seen) in
theorem blocker_looks (hplain : ∀ a b c d, t ≠ .assoc a b c d) :
    Looks cx fuel seen t (cx.blocker (fuel + 1) seen t) := by
  by_cases hcut : t ∈ seen ∨ seen.length > 32
  · have heq : cx.blocker (fuel + 1) seen t = some none := by
      cases t with
      | assoc a b c d => exact absurd rfl (hplain a b c d)
      | _ => exact if_pos hcut
    exact heq ▸ .leaves hcut
  have hnew : t ∉ seen := fun h => hcut (.inl h)
  have hroom : seen.length ≤ 32 := Nat.le_of_not_lt fun h => hcut (.inr h)
  have hclear : (∀ i, t ≠ .ref i true false) → (∀ d args, t ≠ .adt d args) → (∀ p, t ≠ .param p) →
      ¬cx.Blocks t := by
    rintro href hadt hparam (⟨i, h⟩ | ⟨d, args, _, h, _⟩ | ⟨p, h, _⟩)
    · exact href i h
    · exact hadt d args h
    · exact hparam p h
  have hinner : (∀ d args, t ≠ .adt d args) → ∀ c, ¬cx.Inner t c := fun hadt c =>
    not_inner fun d args _ heq => absurd heq (hadt d args)
  have hpass : (∀ i, t ≠ .ref i true false) → (∀ d args, t ≠ .adt d args) → (∀ p, t ≠ .param p) →
      Looks cx fuel seen t (t.inPlace.findSomeM? (cx.blocker fuel seen)) :=
    fun href hadt hparam => .passes (hinner hadt) (hclear href hadt hparam)
  cases t with
  | assoc a b c d => exact absurd rfl (hplain a b c d)
  | ref inner mutable counted =>
    have heq : cx.blocker (fuel + 1) seen (.ref inner mutable counted) =
        some (if mutable && !counted then some (.ref inner mutable counted) else none) := if_neg
          hcut
    rw [heq]
    cases mutable <;> cases counted
    · exact hpass (fun _ h => by cases h) (fun _ _ h => by cases h) fun _ h => by cases h
    · exact hpass (fun _ h => by cases h) (fun _ _ h => by cases h) fun _ h => by cases h
    · exact .finds hroom (.inl ⟨inner, rfl⟩)
    · exact hpass (fun _ h => by cases h) (fun _ _ h => by cases h) fun _ h => by cases h
  | param p =>
    have heq : cx.blocker (fuel + 1) seen (.param p) =
        some (if Ty.param p ∈ cx.relaxed then some (.param p)
          else if !cx.paramCopies p then some (.param p) else none) := if_neg hcut
    rw [heq]
    split
    · next h => exact .finds hroom (.inr (.inr ⟨p, rfl, .inl h⟩))
    next hrelaxed =>
    split
    · next h => exact .finds hroom (.inr (.inr ⟨p, rfl, .inr (Bool.not_eq_true' _ ▸ h)⟩))
    · next h =>
      refine .passes (hinner fun _ _ h => by cases h) ?_
      rintro (⟨i, h⟩ | ⟨d, args, _, h, _⟩ | ⟨q, hq, hunbound⟩)
      · cases h
      · cases h
      · obtain rfl := Ty.param.inj hq
        rcases hunbound with hmem | hfalse
        · exact hrelaxed hmem
        · rw [hfalse] at h
          exact h rfl
  | adt def_ args =>
    rw [blocker_adt hcut]
    split
    · next hcopies =>
      refine .passes (fun c => not_inner fun d _ types heq => ?_) ?_
      · obtain ⟨rfl, rfl⟩ := Ty.adt.inj heq
        rw [hcopies]
        exact fun h => by cases h
      · rintro (⟨i, h⟩ | ⟨d, _, item, h, hitem⟩ | ⟨p, h, _⟩)
        · cases h
        · obtain ⟨rfl, rfl⟩ := Ty.adt.inj h
          rw [copyDecl_notCopy_iff.mpr ⟨item, hitem⟩] at hcopies
          cases hcopies
        · cases h
    · next hnot =>
      obtain ⟨item, hitem⟩ := copyDecl_notCopy_iff.mp hnot
      exact .finds hroom (.inr (.inl ⟨def_, args, item, rfl, hitem⟩))
    · next types htypes =>
      rw [← innerTypes_eq htypes]
      exact .enters hnew hroom ⟨def_, args, types, rfl, htypes⟩
  | mut_ i =>
    exact (hpass (fun _ h => by cases h) (fun _ _ h => by cases h) fun _ h => by cases h).of_eq
      ((if_neg hcut).trans (findSomeM?_singleton i).symm)
  | option i =>
    exact (hpass (fun _ h => by cases h) (fun _ _ h => by cases h) fun _ h => by cases h).of_eq
      ((if_neg hcut).trans (findSomeM?_singleton i).symm)
  | _ =>
    exact (hpass (fun _ h => by cases h) (fun _ _ h => by cases h) fun _ h => by cases h).of_eq
      (if_neg hcut)

/-- `blocker` finds only parts that are not copied, under at most 32 nominal types. -/
theorem blocker_finds (hplain : cx.Plain t) {x : Ty} (h : cx.blocker fuel seen t = some (some x)) :
    ∃ S, cx.Way seen t S x ∧ S.length ≤ 32 ∧ cx.Blocks x := by
  induction fuel generalizing seen t with
  | zero => exact nomatch h
  | succ fuel ih =>
    have hlooks := blocker_looks cx seen fuel (hplain t .refl).1
    rw [h] at hlooks
    generalize hr : some (some x) = r at hlooks
    cases hlooks with
    | leaves _ => exact nomatch some.inj hr
    | enters hnew _ _ =>
      obtain ⟨c, hinner, hfound⟩ := findSomeM?_some hr.symm
      obtain ⟨S, hway, hroom, hblocks⟩ := ih (hplain.inner hinner) hfound
      exact ⟨S, hway.into hinner hnew, hroom, hblocks⟩
    | passes _ _ =>
      obtain ⟨c, hc, hfound⟩ := findSomeM?_some hr.symm
      obtain ⟨S, hway, hroom, hblocks⟩ := ih (hplain.near hc) hfound
      exact ⟨S, hway.beside hc, hroom, hblocks⟩
    | finds hroom hblocks =>
      obtain rfl := some.inj (some.inj hr)
      exact ⟨seen, .refl, hroom, hblocks⟩

/-- `blocker` misses no part under at most 32 nominal types. -/
theorem blocker_misses (hplain : cx.Plain t) (hseen : ∀ x ∈ seen, cx.Entered x)
    (h : cx.blocker fuel seen t = some none) (hway : cx.Way seen t S u) (hroom : S.length ≤ 32) :
    ¬cx.Blocks u := by
  induction fuel generalizing seen t with
  | zero => exact nomatch h
  | succ fuel ih =>
    have hlooks := blocker_looks cx seen fuel (hplain t .refl).1
    rw [h] at hlooks
    generalize hr : (some none : Option (Option Ty)) = r at hlooks
    cases hlooks with
    | leaves hcut =>
      rcases hcut with hmem | hdeep
      · -- a way out of a type that the walk is in goes into it again
        have hentered := hseen t hmem
        rcases hway.cases_first with ⟨-, rfl⟩ | ⟨c, hnear, -⟩ | ⟨c, -, hnew, -⟩
        · exact hentered.not_blocks
        · rw [Near, hentered.inPlace] at hnear
          exact nomatch hnear
        · exact absurd hmem hnew
      · exact absurd (hway.length_le.trans hroom) (Nat.not_le_of_lt hdeep)
    | enters hnew _ hentered =>
      have hall := findSomeM?_none hr.symm
      rcases hway.cases_first with ⟨-, rfl⟩ | ⟨c, hnear, -⟩ | ⟨c, hinner, -, hrest⟩
      · exact hentered.not_blocks
      · rw [Near, hentered.inPlace] at hnear
        exact nomatch hnear
      · refine ih (hplain.inner hinner) (fun x hx => ?_) (hall c hinner) hrest
        rcases mem_cons.mp hx with rfl | hx
        · exact hentered
        · exact hseen x hx
    | passes hinner hclear =>
      have hall := findSomeM?_none hr.symm
      rcases hway.cases_first with ⟨-, rfl⟩ | ⟨c, hnear, hrest⟩ | ⟨c, hinto, -, -⟩
      · exact hclear
      · exact ih (hplain.near hnear) hseen (hall c hnear) hrest
      · exact absurd hinto (hinner c)
    | finds _ _ => exact nomatch some.inj hr

/-- What holds of each of some types from a fuel on holds of all from a fuel on. -/
theorem eventually_all {P : ℕ → Ty → Prop} (h : ∀ c ∈ types, ∃ n, ∀ fuel ≥ n, P fuel c)
    : ∃ n, ∀ fuel ≥ n, ∀ c ∈ types, P fuel c := by
  induction types with
  | nil => exact ⟨0, fun _ _ _ hc => nomatch hc⟩
  | cons t types ih =>
    obtain ⟨n, hn⟩ := h t mem_cons_self
    obtain ⟨m, hm⟩ := ih fun c hc => h c (mem_cons_of_mem _ hc)
    refine ⟨max n m, fun fuel hfuel c hc => ?_⟩
    rcases mem_cons.mp hc with rfl | hc
    · exact hn fuel (Nat.le_trans (Nat.le_max_left n m) hfuel)
    · exact hm fuel (Nat.le_trans (Nat.le_max_right n m) hfuel) c hc

/-- `blocker` ends at a type if it ends at all that it looks at from there. -/
theorem blocker_ends_at (hplain : ∀ a b c d, t ≠ .assoc a b c d)
    (hplace : ∀ c ∈ t.inPlace, ∃ n, ∀ fuel ≥ n, (cx.blocker fuel seen c).isSome)
    (hinner : seen.length ≤ 32 →
      ∀ c ∈ cx.innerTypes t, ∃ n, ∀ fuel ≥ n, (cx.blocker fuel (t :: seen) c).isSome) :
    ∃ n, ∀ fuel ≥ n, (cx.blocker fuel seen t).isSome := by
  obtain ⟨n, hn⟩ := eventually_all hplace
  obtain ⟨m, hm⟩ : ∃ m, ∀ fuel ≥ m, seen.length ≤ 32 → ∀ c ∈ cx.innerTypes t,
      (cx.blocker fuel (t :: seen) c).isSome := by
    by_cases hroom : seen.length ≤ 32
    · obtain ⟨m, hm⟩ := eventually_all (hinner hroom)
      exact ⟨m, fun fuel hfuel _ => hm fuel hfuel⟩
    · exact ⟨0, fun _ _ h => absurd h hroom⟩
  refine ⟨max n m + 1, fun fuel hfuel => ?_⟩
  obtain ⟨fuel, rfl⟩ : ∃ k, fuel = k + 1 := ⟨fuel - 1, by omega⟩
  generalize hr : cx.blocker (fuel + 1) seen t = r
  have hlooks := blocker_looks cx seen fuel hplain
  rw [hr] at hlooks
  cases hlooks with
  | leaves _ => rfl
  | enters _ hroom _ => exact findSomeM?_isSome fun c hc => hm fuel (by omega) hroom c hc
  | passes _ _ => exact findSomeM?_isSome fun c hc => hn fuel (by omega) c hc
  | finds _ _ => rfl

/-- `blocker` ends: it is in at most 33 nominal types, and types in place are smaller. -/
theorem blocker_ends (hplain : cx.Plain t) (seen : List Ty) :
    ∃ n, ∀ fuel ≥ n, (cx.blocker fuel seen t).isSome := by
  have hends : ∀ left (seen : List Ty), 33 ≤ seen.length + left → ∀ t, cx.Plain t →
      ∃ n, ∀ fuel ≥ n, (cx.blocker fuel seen t).isSome := by
    intro left
    induction left with
    | zero =>
      intro seen hleft t
      induction t using Ty.induct with
      | h t ih =>
        intro hplain
        exact blocker_ends_at (hplain t .refl).1
          (fun c hc => ih c (Ty.mem_children_of_inPlace hc) (hplain.near hc))
          fun hroom => absurd hleft (by omega)
    | succ left ihleft =>
      intro seen hleft t
      induction t using Ty.induct with
      | h t ih =>
        intro hplain
        refine blocker_ends_at (hplain t .refl).1
          (fun c hc => ih c (Ty.mem_children_of_inPlace hc) (hplain.near hc)) fun _ c hc => ?_
        exact ihleft (t :: seen) (by rw [length_cons]; omega) c (hplain.inner hc)
  exact hends 33 seen (Nat.le_add_left _ _) t hplain

end Items

end HdLang.Types
