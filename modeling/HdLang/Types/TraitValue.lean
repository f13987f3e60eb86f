import HdLang.Types.Copying
import HdLang.Types.Matching
import Mathlib.Algebra.GroupWithZero.Nat
import Mathlib.Algebra.Order.BigOperators.Group.List

/-!
# Supertraits of trait values

`trait_value_holds` and `all_members_available` of `crates/hd_types/src/solver.rs`. Both are
depth-first walks with a list of what was seen: the first over traits with their arguments, which a
supertrait declaration gives over the subtrait's, the second over trait names. A finished walk has
seen the end of every chain (`availableFrom_iff`, `Decides`), but the first does not go on past the
sixteenth supertrait of a chain. It answers exactly for values without a longer one
(`trait_value_supertraits`).
-/

namespace HdLang.Types

open List

/-- `DefId::NONE` -/
def DefId.none : DefId := 2 ^ 32 - 1

/-- What the walks read of the declarations. Only the traits of the program have supertraits. -/
structure Declarations where
  traits : List DefId
  /-- A trait's direct supertraits, over its parameters: `Self` is parameter 0. -/
  supertraits : DefId → List Ty
  hasUnavailableMember : DefId → Bool
  hasUnavailableReferenceMember : DefId → Bool → Bool
  outside : ∀ d, d ∉ traits → supertraits d = []

/-- A trait with its arguments. -/
abbrev Instance := DefId × List Ty

/-- A chain of `k` steps. -/
inductive Chain {α : Type} (next : α → List α) : ℕ → α → α → Prop
  | refl (a : α) : Chain next 0 a a
  | cons {k : ℕ} {a b c : α} (hb : b ∈ next a) (h : Chain next k b c) : Chain next (k + 1) a c

namespace Declarations

variable (decls : Declarations)

/-! ### Members -/

/-- The names of a trait's direct supertraits. -/
def heads (t : DefId) : List DefId := (decls.supertraits t).filterMap Ty.traitValue?

/-- The traits of a list that are new, on top of the seen and of those to do. -/
def push : List DefId → List DefId × List DefId → List DefId × List DefId
  | [], work => work
  | d :: ds, (seen, todo) =>
    push ds (if d ∈ seen then (seen, todo) else (d :: seen, d :: todo))

theorem mem_push (ds seen todo : List DefId) (x : DefId) :
    (x ∈ (push ds (seen, todo)).1 ↔ x ∈ seen ∨ x ∈ ds) ∧
      (x ∈ (push ds (seen, todo)).2 ↔ x ∈ todo ∨ x ∈ ds ∧ x ∉ seen) := by
  induction ds generalizing seen todo with
  | nil => simp [push]
  | cons d ds ih =>
    rw [push]
    by_cases hd : d ∈ seen
    · rw [if_pos hd]
      grind
    · rw [if_neg hd]
      grind

/-- The traits that a walk has not seen. -/
def unseen (seen : List DefId) : Finset DefId :=
  (decls.traits.flatMap decls.heads).toFinset \ seen.toFinset

/-- A trait leaves no more to see and do than it adds. -/
theorem card_push_le (t : DefId) {ds : List DefId} (h : ∀ d ∈ ds, d ∈ decls.heads t)
    (seen todo : List DefId) :
    (decls.unseen (push ds (seen, todo)).1).card + (push ds (seen, todo)).2.length ≤
      (decls.unseen seen).card + todo.length := by
  induction ds generalizing seen todo with
  | nil => exact le_rfl
  | cons d ds ih =>
    obtain ⟨hd, hds⟩ := forall_mem_cons.mp h
    have ht : t ∈ decls.traits := by
      by_contra ht
      rw [heads, decls.outside t ht] at hd
      exact not_mem_nil hd
    rw [push]
    by_cases hseen : d ∈ seen
    · rw [if_pos hseen]
      exact ih hds seen todo
    · have hlt : (decls.unseen (d :: seen)).card < (decls.unseen seen).card := by
        have hin : d ∈ decls.unseen seen := Finset.mem_sdiff.mpr
          ⟨mem_toFinset.mpr (mem_flatMap.mpr ⟨t, ht, hd⟩), by simpa using hseen⟩
        rw [unseen, toFinset_cons, Finset.sdiff_insert]
        exact Finset.card_erase_lt_of_mem hin
      rw [if_neg hseen]
      refine (ih hds (d :: seen) (d :: todo)).trans ?_
      rw [length_cons]
      omega

/-- Whether a trait has a member that does not work through a value, or a reference to one. -/
def unavailable (reference : Option Bool) (t : DefId) : Bool :=
  match reference with
  | none => decls.hasUnavailableMember t
  | some mutable => decls.hasUnavailableReferenceMember t mutable

/-- The loop of `all_members_available`. -/
def availableFrom (reference : Option Bool) (seen : List DefId) : List DefId → Bool
  | [] => true
  | t :: todo =>
    if decls.unavailable reference t then false
    else availableFrom reference (push (decls.heads t) (seen, todo)).1
      (push (decls.heads t) (seen, todo)).2
termination_by todo => (decls.unseen seen).card + todo.length
decreasing_by
  exact Nat.lt_succ_of_le (decls.card_push_le t (fun _ => id) seen todo)

def allMembersAvailable (trait_ : DefId) (reference : Option Bool) : Bool :=
  decls.availableFrom reference [trait_] [trait_]

/-- The walk answers for every trait that it has met and for what is above one it is still to do. -/
theorem availableFrom_iff (reference : Option Bool) (seen todo : List DefId)
    (hdone : ∀ t ∈ seen, t ∉ todo →
      decls.unavailable reference t = false ∧ ∀ d ∈ decls.heads t, d ∈ seen)
    (htodo : ∀ t ∈ todo, t ∈ seen) :
    decls.availableFrom reference seen todo = true ↔
      ∀ t ∈ seen, ∀ k d, Chain decls.heads k t d → decls.unavailable reference d = false := by
  induction seen, todo using availableFrom.induct decls reference with
  | case1 seen =>
    rw [availableFrom]
    refine iff_of_true rfl fun t ht k d h => ?_
    induction h with
    | refl => exact (hdone _ ht not_mem_nil).1
    | cons hb _ ih => exact ih ((hdone _ ht not_mem_nil).2 _ hb)
  | case2 seen t todo hbad =>
    rw [availableFrom, if_pos hbad]
    refine iff_of_false Bool.false_ne_true fun h => ?_
    rw [h t (htodo t mem_cons_self) 0 t (.refl t)] at hbad
    exact Bool.false_ne_true hbad
  | case3 seen t todo hgood ih =>
    have hmem := mem_push (decls.heads t) seen todo
    have ht := htodo t mem_cons_self
    rw [availableFrom, if_neg hgood, ih ?_ ?_]
    · constructor
      · exact fun h x hx => h x ((hmem x).1.mpr (.inl hx))
      · intro h x hx k d hchain
        obtain hx | hx := (hmem x).1.mp hx
        · exact h x hx k d hchain
        · exact h t ht (k + 1) d (.cons hx hchain)
    · intro x hx hrest
      rw [(hmem x).1] at hx
      rw [(hmem x).2, not_or, not_and_not_right] at hrest
      by_cases hxt : x = t
      · subst hxt
        exact ⟨Bool.not_eq_true _ ▸ hgood, fun d hd => (hmem d).1.mpr (.inr hd)⟩
      · obtain ⟨hok, habove⟩ := hdone x (hx.elim id hrest.2) fun h =>
          hrest.1 ((mem_cons.mp h).resolve_left hxt)
        exact ⟨hok, fun d hd => (hmem d).1.mpr (.inl (habove d hd))⟩
    · intro x hx
      obtain hx | hx := (hmem x).2.mp hx
      · exact (hmem x).1.mpr (.inl (htodo x (.tail _ hx)))
      · exact (hmem x).1.mpr (.inr hx.1)

/-- **Every member works** when no trait above, the trait included, has one that does not. -/
theorem allMembersAvailable_iff (trait_ : DefId) (reference : Option Bool) :
    decls.allMembersAvailable trait_ reference = true ↔
      ∀ k d, Chain decls.heads k trait_ d → decls.unavailable reference d = false := by
  rw [allMembersAvailable, availableFrom_iff decls reference [trait_] [trait_]
    (fun t ht h => absurd ht h) fun t ht => ht]
  exact forall_mem_singleton

end Declarations

/-! ### Equal arguments -/

namespace Ty

/-- A type that heads are matched against by its constructor alone. -/
def plainHead : Ty → Bool
  | .poison | .infer _ | .mut_ _ | .fn .. | .traitValue .. => false
  | .param p => p.owner ≠ DefId.none
  | .row r => r.params.all (·.owner ≠ DefId.none)
  | _ => true

/-- A type without the error type, variables, markers, functions and trait values in it. -/
def Plain (t : Ty) : Prop := ∀ u ∈ t.parts, u.plainHead = true

theorem Plain.head {t : Ty} (h : t.Plain) : t.plainHead = true := h t t.mem_parts

theorem Plain.child {t c : Ty} (h : t.Plain) (hc : c ∈ t.children) : c.Plain := by
  intro u hu
  refine h u ?_
  rw [parts_eq]
  exact .tail _ (mem_flatMap.mpr ⟨c, hc, hu⟩)

end Ty

/-- The answer of a match without parameters of its own: whether the two are equal. -/
def equal (p : Prop) [Decidable p] (binds : Binds) : M × Binds := (if p then .yes else .no, binds)

theorem ite_eq_equal (p : Prop) [Decidable p] (binds : Binds) :
    (if p then (.yes, binds) else (.no, binds)) = equal p binds := by
  unfold equal
  split <;> rfl

theorem equal_congr {p q : Prop} [Decidable p] [Decidable q] (h : p ↔ q) (binds : Binds) :
    equal p binds = equal q binds := by
  unfold equal
  simp only [h]

theorem matchEach_equal {ps ts : List Ty} (binds : Binds) (hlen : ps.length = ts.length)
    (h : ∀ p ∈ ps, ∀ t ∈ ts, matchTy DefId.none p t binds = equal (p = t) binds) :
    matchEach DefId.none ps ts .yes binds = equal (ps = ts) binds := by
  induction ps generalizing ts with
  | nil =>
    obtain rfl := length_eq_zero_iff.mp hlen.symm
    rw [matchEach]
    · rfl
    · exact fun _ _ _ _ h => by cases h
  | cons p ps ih =>
    obtain ⟨t, ts, rfl⟩ : ∃ t ts', ts = t :: ts' := by
      cases ts with
      | nil => cases hlen
      | cons t ts => exact ⟨t, ts, rfl⟩
    rw [matchEach, h p mem_cons_self t mem_cons_self]
    by_cases hpt : p = t
    · have htail := ih (Nat.succ.inj hlen) fun p hp t ht => h p (.tail _ hp) t (.tail _ ht)
      rw [equal, if_pos hpt]
      exact htail.trans (equal_congr (by simp [hpt]) binds)
    · rw [equal, if_neg hpt, equal, if_neg (by simp [hpt])]
      rfl

theorem matchList_equal {ps ts : List Ty} (binds : Binds)
    (h : ∀ p ∈ ps, ∀ t ∈ ts, matchTy DefId.none p t binds = equal (p = t) binds) :
    matchList DefId.none ps ts binds = equal (ps = ts) binds := by
  rw [matchList]
  split
  · next hlen => exact matchEach_equal binds hlen h
  · next hlen => rw [equal, if_neg fun heq => hlen (by rw [heq])]

/-- **Plain types match when they are equal.** -/
theorem matchTy_equal {pat : Ty} (hpat : pat.Plain) {t : Ty} (ht : t.Plain) (binds : Binds) :
    matchTy DefId.none pat t binds = equal (pat = t) binds := by
  induction pat using Ty.induct generalizing t with
  | h pat ih =>
    have hown : ownParamIndex DefId.none pat = none := by
      cases pat with
      | param p => exact if_neg (of_decide_eq_true hpat.head)
      | _ => rfl
    have hlist : ∀ {ps ts : List Ty}, (∀ p ∈ ps, p ∈ pat.children) → (∀ u ∈ ts, u ∈ t.children) →
        matchList DefId.none ps ts binds = equal (ps = ts) binds := fun hps hts =>
      matchList_equal binds fun p hp u hu =>
        ih p (hps p hp) (hpat.child (hps p hp)) (ht.child (hts u hu))
    have hparts : matchParts DefId.none pat t binds = equal (pat = t) binds := by
      unfold matchParts
      split
      · next d₁ a₁ d₂ a₂ =>
        split
        · next heq => exact (hlist (fun _ => id) fun _ => id).trans (equal_congr (by simp [heq]) _)
        · next hne => rw [equal, if_neg (by simp [hne])]
      · next p m₁ c₁ x m₂ c₂ =>
        split
        · next heq =>
          exact (ih p mem_cons_self (hpat.child mem_cons_self)
            (ht.child mem_cons_self)).trans (equal_congr (by simp [heq]) _)
        · next hne => rw [equal, if_neg (by simpa using fun _ => not_and.mp hne)]
      · exact (hlist (by simp) (by simp)).trans (equal_congr (by simp) _)
      · next e₁ r₁ e₂ r₂ =>
        rw [hlist (fun p hp => by simp [hp]) fun p hp => by simp [hp]]
        by_cases heq : e₁ = e₂
        · rw [equal, if_pos heq]
          dsimp only
          rw [ih r₁ (by simp) (hpat.child (by simp)) (ht.child (by simp))]
          by_cases hr : r₁ = r₂ <;> simp [equal, both, heq, hr]
        · simp [equal, heq]
      · exact (hlist (fun _ => id) fun _ => id).trans (equal_congr (by simp) _)
      · next p x =>
        exact (ih p mem_cons_self (hpat.child mem_cons_self)
          (ht.child mem_cons_self)).trans (equal_congr (by simp) _)
      · exact absurd hpat.head Bool.false_ne_true
      · next w₁ w₂ =>
        split
        · next p _ hp =>
          have hne : p.owner ≠ DefId.none := by
            have hall := hpat.head
            simp only [Ty.plainHead, hp, all_cons, Bool.and_eq_true] at hall
            exact of_decide_eq_true hall.1
          rw [if_neg hne]
          exact (ite_eq_equal _ _).trans (equal_congr (by simp) _)
        · exact (ite_eq_equal _ _).trans (equal_congr (by simp) _)
      · exact absurd hpat.head Bool.false_ne_true
      · exact ite_eq_equal _ _
    rw [matchTy.eq_def, hown]
    dsimp only
    split
    · next hsame => rw [equal, if_pos hsame.1]
    · cases t with
      | poison | infer _ | mut_ _ => exact absurd ht.head Bool.false_ne_true
      | _ =>
        cases pat with
        | mut_ _ => exact absurd hpat.head Bool.false_ne_true
        | _ => exact hparts

/-! ### Supertraits -/

def learnedFrom (head goal : List Ty) : List (ℕ × Ty) :=
  (goal.zip head).filterMap fun
    | (.infer v, h) => some (v, h)
    | _ => none

/-- A goal on a trait value: what the walk reads beside the value. -/
structure ValueGoal where
  pool : Pool
  decls : Declarations
  /-- The trait value's own type. -/
  selfTy : Ty
  trait_ : DefId
  args : List Ty

namespace ValueGoal

variable (g : ValueGoal)

/-- What the members of a trait are asked through: a value, or a reference of a kind. -/
def reference : Option Bool :=
  match g.selfTy with
  | .ref _ mutable _ => some mutable
  | _ => none

/-- What a declared supertrait's parameters are for the trait value: its own type and the trait's
arguments. -/
def superArgs (i : Instance) (p : ParamRef) : Option Ty :=
  if p.owner ≠ i.1 then none
  else if p.index = 0 then some g.selfTy
  else i.2[p.index - 1]?

/-- The direct supertraits of a trait with its arguments, in declared order. -/
def supers (i : Instance) : List Instance :=
  (g.decls.supertraits i.1).filterMap fun s =>
    match g.pool.subst (g.superArgs i) s with
    | .traitValue d args _ => some (d, args)
    | _ => none

/-- Whether a trait with its arguments is the goal's. -/
def Hit (i : Instance) : Prop := i.1 = g.trait_ ∧ (matchList DefId.none i.2 g.args []).1 ≠ .no

instance (i : Instance) : Decidable (g.Hit i) := inferInstanceAs (Decidable (_ ∧ _))

/-- The steps left at a trait that `depth` steps may follow: it and what is above it. -/
def above : ℕ → Instance → ℕ
  | 0, _ => 1
  | depth + 1, i => 1 + ((g.supers i).map (above depth)).sum

/-- The steps left with a stack. -/
def left (stack : List (Instance × ℕ)) : ℕ := (stack.map fun x => g.above (17 - x.2) x.1).sum

/-- The loop of `trait_value_holds`. The supertraits are pushed last first, so that the first is on
top. -/
def holdsFrom : List (Instance × ℕ) → List Instance → Option (List (ℕ × Ty))
  | [], _ => none
  | (i, depth) :: stack, seen =>
    if 16 < depth ∨ i ∈ seen then holdsFrom stack seen
    else if g.Hit i then
      if g.decls.allMembersAvailable g.trait_ g.reference then some (learnedFrom i.2 g.args)
      else none
    else holdsFrom ((g.supers i).map (·, depth + 1) ++ stack) (i :: seen)
termination_by stack => g.left stack
decreasing_by
  · have hpos : 0 < g.above (17 - depth) i := by
      cases 17 - depth <;> rw [above] <;> omega
    rw [left, left, List.map_cons, List.sum_cons]
    exact Nat.lt_add_of_pos_left hpos
  · obtain ⟨k, hk⟩ : ∃ k, 17 - depth = k + 1 := ⟨16 - depth, by omega⟩
    have heq : (fun x : Instance × ℕ => g.above (17 - x.2) x.1) ∘ (·, depth + 1) = g.above k := by
      funext j
      rw [Function.comp_apply, show 17 - (depth + 1) = k by omega]
    rw [left, left, List.map_append, List.sum_append, List.map_map, heq, List.map_cons,
      List.sum_cons]
    dsimp only
    rw [hk, above]
    omega

def traitValueHolds (value : Instance) : Option (List (ℕ × Ty)) := g.holdsFrom [(value, 0)] []

/-- No argument of the goal has a variable. -/
def Ground : Prop := ∀ a ∈ g.args, a.hasInfer = false

/-- What the goal asks of a value: the goal's trait is the value's or above it, and all of its
members work through the value. -/
def Satisfies (value : Instance) : Prop :=
  (∃ k j, Chain g.supers k value j ∧ g.Hit j) ∧
    ∀ k d, Chain g.decls.heads k g.trait_ d → g.decls.unavailable g.reference d = false

/-- No chain of supertraits from the value is cut. -/
def Shallow (value : Instance) : Prop := ∀ k j, Chain g.supers k value j → k ≤ 16

variable {g} {stack : List (Instance × ℕ)} {seen : List Instance} {learned : List (ℕ × Ty)}
  {value i j : Instance} {k : ℕ}

theorem learnedFrom_of_ground (h : g.Ground) (head : List Ty) : learnedFrom head g.args = [] := by
  rw [learnedFrom, filterMap_eq_nil_iff]
  rintro ⟨a, t⟩ ha
  have hground := h a (of_mem_zip ha).1
  cases a with
  | infer v => cases hground
  | _ => rfl

theorem map_fst_pushed (l : List Instance) (depth : ℕ) :
    (l.map (·, depth) ++ stack).map Prod.fst = l ++ stack.map Prod.fst := by
  simp [Function.comp_def]

/-- A trait that the walk answers for is above one on its stack. -/
theorem holdsFrom_sound (hground : g.Ground) (h : g.holdsFrom stack seen = some learned) :
    learned = [] ∧ g.decls.allMembersAvailable g.trait_ g.reference = true ∧
      ∃ i ∈ stack.map Prod.fst, ∃ k j, Chain g.supers k i j ∧ g.Hit j := by
  induction stack, seen using holdsFrom.induct g with
  | case1 seen =>
    rw [holdsFrom] at h
    cases h
  | case2 i depth stack seen hskip ih =>
    rw [holdsFrom, if_pos hskip] at h
    obtain ⟨hlearned, havail, j, hj, hreach⟩ := ih h
    exact ⟨hlearned, havail, j, .tail _ hj, hreach⟩
  | case3 i depth stack seen hskip hhit havail =>
    rw [holdsFrom, if_neg hskip, if_pos hhit, if_pos havail, learnedFrom_of_ground hground] at h
    exact ⟨(Option.some.inj h).symm, havail, i, mem_cons_self, 0, i, .refl i, hhit⟩
  | case4 i depth stack seen hskip hhit havail =>
    rw [holdsFrom, if_neg hskip, if_pos hhit, if_neg havail] at h
    cases h
  | case5 i depth stack seen hskip hhit ih =>
    rw [holdsFrom, if_neg hskip, if_neg hhit] at h
    obtain ⟨hlearned, havail, j, hj, k, m, hchain, hm⟩ := ih h
    refine ⟨hlearned, havail, ?_⟩
    rw [map_fst_pushed] at hj
    obtain hj | hj := mem_append.mp hj
    · exact ⟨i, mem_cons_self, k + 1, m, .cons hj hchain, hm⟩
    · exact ⟨j, .tail _ hj, k, m, hchain, hm⟩

/-- A walk without an answer has met every trait above its stack, when no chain is cut. -/
theorem holdsFrom_complete (havail : g.decls.allMembersAvailable g.trait_ g.reference = true)
    (hroom : ∀ x ∈ stack, ∀ k j, Chain g.supers k x.1 j → x.2 + k ≤ 16)
    (hdone : ∀ i ∈ seen, ¬g.Hit i ∧ ∀ j ∈ g.supers i, j ∈ seen ∨ j ∈ stack.map Prod.fst)
    (h : g.holdsFrom stack seen = none) (hi : i ∈ seen ∨ i ∈ stack.map Prod.fst)
    (hchain : Chain g.supers k i j) : ¬g.Hit j := by
  induction stack, seen using holdsFrom.induct g with
  | case1 seen =>
    replace hi := hi.resolve_right not_mem_nil
    induction hchain with
    | refl => exact (hdone _ hi).1
    | cons hb _ ih => exact ih (((hdone _ hi).2 _ hb).resolve_right not_mem_nil)
  | case2 x depth stack seen hskip ih =>
    have hdepth := hroom (x, depth) mem_cons_self 0 x (.refl x)
    have hx : x ∈ seen := hskip.resolve_left (by dsimp only at hdepth; omega)
    have hmem : ∀ m, m ∈ seen ∨ m ∈ ((x, depth) :: stack).map Prod.fst →
        m ∈ seen ∨ m ∈ stack.map Prod.fst := by
      rintro m (hm | hm)
      · exact .inl hm
      · obtain rfl | hm := mem_cons.mp hm
        · exact .inl hx
        · exact .inr hm
    rw [holdsFrom, if_pos hskip] at h
    exact ih (fun x hx => hroom x (.tail _ hx))
      (fun m hm => ⟨(hdone m hm).1, fun n hn => hmem n ((hdone m hm).2 n hn)⟩) h (hmem i hi)
  | case3 x depth stack seen hskip hhit =>
    rw [holdsFrom, if_neg hskip, if_pos hhit, if_pos havail] at h
    cases h
  | case4 x depth stack seen hskip hhit hbad => exact absurd havail hbad
  | case5 x depth stack seen hskip hhit ih =>
    rw [holdsFrom, if_neg hskip, if_neg hhit] at h
    have hmem : ∀ m, m ∈ seen ∨ m ∈ ((x, depth) :: stack).map Prod.fst →
        m ∈ x :: seen ∨ m ∈ ((g.supers x).map (·, depth + 1) ++ stack).map Prod.fst := by
      rw [map_fst_pushed]
      rintro m (hm | hm)
      · exact .inl (.tail _ hm)
      · obtain rfl | hm := mem_cons.mp hm
        · exact .inl mem_cons_self
        · exact .inr (mem_append_right _ hm)
    refine ih ?_ ?_ h (hmem i hi)
    · intro y hy k j hchain
      obtain hy | hy := mem_append.mp hy
      · obtain ⟨m, hm, rfl⟩ := mem_map.mp hy
        have := hroom (x, depth) mem_cons_self (k + 1) j (.cons hm hchain)
        dsimp only at this ⊢
        omega
      · exact hroom y (.tail _ hy) k j hchain
    · intro m hm
      obtain rfl | hm := mem_cons.mp hm
      · refine ⟨hhit, fun n hn => .inr ?_⟩
        rw [map_fst_pushed]
        exact mem_append_left _ hn
      · exact ⟨(hdone m hm).1, fun n hn => hmem n ((hdone m hm).2 n hn)⟩

theorem traitValueHolds_sound (hground : g.Ground) (h : g.traitValueHolds value = some learned) :
    learned = [] ∧ g.Satisfies value := by
  obtain ⟨hlearned, havail, i, hi, hreach⟩ := holdsFrom_sound hground h
  obtain rfl := mem_singleton.mp hi
  exact ⟨hlearned, hreach, (g.decls.allMembersAvailable_iff _ _).mp havail⟩

theorem traitValueHolds_iff (hground : g.Ground) (hshort : g.Shallow value) :
    g.traitValueHolds value = some [] ∧ g.Satisfies value ∨
      g.traitValueHolds value = none ∧ ¬g.Satisfies value := by
  cases hanswer : g.traitValueHolds value with
  | some learned =>
    obtain ⟨rfl, hsat⟩ := traitValueHolds_sound hground hanswer
    exact .inl ⟨rfl, hsat⟩
  | none =>
    refine .inr ⟨rfl, ?_⟩
    rintro ⟨⟨k, j, hchain, hhit⟩, havail⟩
    refine holdsFrom_complete ((g.decls.allMembersAvailable_iff _ _).mpr havail) ?_ (forall_mem_nil _)
      hanswer (.inr mem_cons_self) hchain hhit
    intro x hx k j hchain
    obtain rfl := mem_singleton.mp hx
    exact (Nat.zero_add k).symm ▸ hshort k j hchain

/-! ### The order of the declarations -/

theorem Chain.congr {α : Type} {next next' : α → List α} (h : ∀ a b, b ∈ next a ↔ b ∈ next' a)
    {k : ℕ} {a b : α} : Chain next k a b ↔ Chain next' k a b := by
  constructor
  · intro hchain
    induction hchain with
    | refl a => exact .refl a
    | cons hb _ ih => exact .cons ((h _ _).mp hb) ih
  · intro hchain
    induction hchain with
    | refl a => exact .refl a
    | cons hb _ ih => exact .cons ((h _ _).mpr hb) ih

/-- The supertraits of each trait are declared in another order. -/
structure Reordered (decls decls' : Declarations) : Prop where
  supertraits : ∀ d, (decls'.supertraits d).Perm (decls.supertraits d)
  unavailable : decls'.unavailable = decls.unavailable

variable {decls' : Declarations}

theorem Reordered.chain (h : Reordered g.decls decls') :
    Chain (supers { g with decls := decls' }) k i j ↔ Chain g.supers k i j :=
  Chain.congr fun i _ => ((h.supertraits i.1).filterMap _).mem_iff

theorem Reordered.satisfies (h : Reordered g.decls decls') :
    Satisfies { g with decls := decls' } value ↔ g.Satisfies value := by
  have hheads : ∀ k t d, Chain decls'.heads k t d ↔ Chain g.decls.heads k t d := fun _ _ _ =>
    Chain.congr fun t _ => ((h.supertraits t).filterMap _).mem_iff
  simp only [Satisfies, h.chain, hheads, h.unavailable]
  rfl

/-- Each of the first `n` traits has the next one as its only supertrait, and the goal is trait
`n`. -/
def chained (n : ℕ) (args : List Ty) : ValueGoal where
  pool := Pool.numbered
  decls :=
    { traits := List.range n
      supertraits := fun d => if d < n then [.traitValue (d + 1) [] []] else []
      hasUnavailableMember := fun _ => false
      hasUnavailableReferenceMember := fun _ _ => false
      outside := fun _ hd => if_neg fun h => hd (List.mem_range.mpr h) }
  selfTy := .never
  trait_ := n
  args := args

theorem supers_chained (n : ℕ) (args : List Ty) (i : Instance) :
    (chained n args).supers i = if i.1 < n then [(i.1 + 1, [])] else [] := by
  rw [supers, chained]
  dsimp only
  split <;> rfl

theorem hit_chained {n : ℕ} {args : List Ty} {i : Instance} :
    (chained n args).Hit i ↔ i.1 = n ∧ (matchList DefId.none i.2 args []).1 ≠ .no := Iff.rfl

theorem chain_chained {n k d : ℕ} (h : d + k ≤ n) :
    Chain (chained n []).supers k (d, []) (d + k, []) := by
  induction k generalizing d with
  | zero => exact .refl _
  | succ k ih =>
    refine .cons (b := (d + 1, [])) ?_ ?_
    · rw [supers_chained, if_pos (show d < n by omega)]
      exact mem_singleton_self _
    · exact (show d + 1 + k = d + (k + 1) by omega) ▸ ih (by omega)

theorem le_of_chain_chained {n : ℕ} (h : Chain (chained n []).supers k i j) (hi : i.1 ≤ n) :
    i.1 + k ≤ n := by
  induction h with
  | refl => exact hi
  | @cons k i j _ hb _ ih =>
    rw [supers_chained] at hb
    split at hb
    · next hlt =>
      obtain rfl := mem_singleton.mp hb
      exact (Nat.succ_add i.1 k).ge.trans (ih hlt)
    · cases hb

end ValueGoal
end HdLang.Types
