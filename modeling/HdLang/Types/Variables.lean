import HdLang.Types.Unify

/-!
# The variables of types

What the unifier's reading functions give mentions no variables but those of the table and of what
they were given. What `resolve` gives mentions open variables only: roots that are not bound.
-/

namespace HdLang.Types

open List Ty

/-- `p` holds of each variable in `t`. -/
def Ty.VarsIn (p : ℕ → Prop) (t : Ty) : Prop := ∀ v, Ty.infer v ∈ t.parts → p v

namespace Ty

variable {p : ℕ → Prop} {t : Ty}

theorem varsIn_iff : t.VarsIn p ↔ (∀ v, t = .infer v → p v) ∧ ∀ c ∈ t.children, c.VarsIn p := by
  have hparts : ∀ u, u ∈ t.parts ↔ u = t ∨ ∃ c ∈ t.children, u ∈ c.parts := fun u => by
    rw [parts_eq, mem_cons, mem_flatMap]
  constructor
  · intro h
    exact ⟨fun v hv => h v ((hparts _).mpr (.inl hv.symm)),
      fun c hc v hv => h v ((hparts _).mpr (.inr ⟨c, hc, hv⟩))⟩
  · rintro ⟨hown, hin⟩ v hv
    obtain hv | ⟨c, hc, hv⟩ := (hparts _).mp hv
    · exact hown v hv.symm
    · exact hin c hc v hv

theorem VarsIn.child {c : Ty} (h : t.VarsIn p) (hc : c ∈ t.children) : c.VarsIn p :=
  (varsIn_iff.mp h).2 c hc

theorem VarsIn.mono {q : ℕ → Prop} (h : t.VarsIn p) (hpq : ∀ v, p v → q v) : t.VarsIn q :=
  fun v hv => hpq v (h v hv)

@[simp] theorem varsIn_infer {v : ℕ} : (Ty.infer v).VarsIn p ↔ p v := by
  rw [varsIn_iff]
  simp

/-- A type that is no variable mentions the variables of its parts. -/
theorem varsIn_of_children (hown : t.isInfer = false) (h : ∀ c ∈ t.children, c.VarsIn p) :
    t.VarsIn p :=
  varsIn_iff.mpr ⟨fun _ hv => (Bool.false_ne_true (hown.symm.trans (congrArg isInfer hv))).elim, h⟩

/-- A type with no variable mentions none but these. -/
theorem varsIn_of_not_hasInfer (h : t.hasInfer = false) : t.VarsIn p := fun v hv => by
  rw [hasInfer, any_eq_false] at h
  exact absurd rfl (h _ hv)

end Ty

variable {r : RowData Ty}

namespace Pool

variable {p : ℕ → Prop}

/-- Interning a type changes what it is made of to what that is made of, at most. -/
theorem varsIn_internTy {t : Ty} (h : t.VarsIn p) : (internTy t).VarsIn p := by
  unfold internTy
  split
  · have hparams := h.child (mem_append_left _ mem_cons_self)
    refine varsIn_of_children rfl fun c hc => ?_
    obtain hc | hc := mem_append.mp hc
    · exact hparams.child (mem_append_left _ hc)
    · exact h.child (mem_append_right _ hc)
  · have hparams := h.child (mem_append_left _ mem_cons_self)
    refine varsIn_of_children rfl fun c hc => ?_
    obtain hc | hc := mem_append.mp hc
    · exact hparams.child hc
    · exact h.child (mem_append_right _ hc)
  · refine varsIn_of_children rfl fun c hc => ?_
    obtain hc | hc := mem_append.mp hc
    · exact h.child (mem_append_left _ hc)
    · obtain ⟨b, hb, rfl⟩ := mem_map.mp hc
      rw [mem_insertionSort] at hb
      exact h.child (mem_append_right _ (mem_map_of_mem hb))
  · exact h

theorem varsIn_inputsTuple {params : List Ty} {inputs : Inputs} (h : ∀ c ∈ params, c.VarsIn p) :
    (inputsTuple params inputs).VarsIn p := by
  unfold inputsTuple
  split
  · exact h _ mem_cons_self
  · next last hlast =>
    refine varsIn_of_children rfl fun c hc => ?_
    obtain hc | hc := mem_append.mp hc
    · exact h c (dropLast_subset _ hc)
    · obtain rfl := mem_singleton.mp hc
      exact h _ (mem_of_getLast? hlast)
  · refine varsIn_of_children rfl fun c hc => ?_
    rw [children, Option.toList_none, append_nil] at hc
    exact h c hc

/-- The keys of an interned row are keys it was given, or of rows among these. -/
theorem varsIn_row {pool : Pool} (h : ∀ k ∈ r.keys, k.VarsIn p) :
    ∀ k ∈ (pool.row r).keys, k.VarsIn p := by
  intro k hk
  have hmem := (destutter_sublist _ _).subset hk
  rw [mem_insertionSort, mem_flatMap] at hmem
  obtain ⟨j, hj, hkj⟩ := hmem
  unfold keysOf at hkj
  split at hkj
  · exact (h _ hj).child hkj
  · obtain rfl := mem_singleton.mp hkj
    exact h _ hj

end Pool

/-! ### Reading the table -/

variable {α : Type} {l : List α} {v : ℕ} {x : α}

theorem column_eq_ok :
    column l v = .ok x ↔ l[v]? = some x := by
  unfold column
  cases l[v]? <;> simp

theorem store_eq_ok {l' : List α} :
    store l v x = .ok l' ↔ v < l.length ∧ l.set v x = l' := by
  unfold store
  split <;> simp [*]

variable {β : Type}

theorem bind_eq_ok {x : Except Halt α} {f : α → Except Halt β} {b : β} :
    (x >>= f) = .ok b ↔ ∃ a, x = .ok a ∧ f a = .ok b := by
  cases x <;> simp [Bind.bind, Except.bind]

theorem mapM_eq_ok {f : α → Except Halt β} {l' : List β} (h : l.mapM f = .ok l')
    : ∀ b ∈ l', ∃ a ∈ l, f a = .ok b := by
  induction l generalizing l' with
  | nil =>
    rw [mapM_nil] at h
    obtain rfl := Except.ok.inj h
    exact fun _ hb => absurd hb not_mem_nil
  | cons a l ih =>
    rw [mapM_cons] at h
    obtain ⟨b, hb, h⟩ := bind_eq_ok.mp h
    obtain ⟨bs, hbs, h⟩ := bind_eq_ok.mp h
    obtain rfl := Except.ok.inj h
    intro c hc
    obtain rfl | hc := mem_cons.mp hc
    · exact ⟨a, mem_cons_self, hb⟩
    · obtain ⟨x, hx, hfx⟩ := ih hbs c hc
      exact ⟨x, mem_cons_of_mem _ hx, hfx⟩

namespace InferTable

variable {t : InferTable} {p : ℕ → Prop}

/-- `v` is a root and not bound. -/
def Open (t : InferTable) (v : ℕ) : Prop := t.parent[v]? = some v ∧ t.binding[v]? = some none

theorem Open.lt {v : ℕ} (h : t.Open v) : v < t.varCount := (List.getElem?_eq_some_iff.mp h.1).1

/-- `p` holds of the table's variables and of those that its bindings mention. -/
structure Holds (p : ℕ → Prop) (t : InferTable) : Prop where
  vars : ∀ v < t.varCount, p v
  bound : ∀ ty, some ty ∈ t.binding → ty.VarsIn p

theorem root_spec {fuel v r : ℕ} (h : t.root fuel v = .ok r) : t.parent[r]? = some r := by
  induction fuel generalizing v with
  | zero => cases h
  | succ fuel ih =>
    rw [root] at h
    obtain ⟨q, hq, h⟩ := bind_eq_ok.mp h
    split at h
    · exact ih h
    · next hroot =>
      obtain rfl := Except.ok.inj h
      rw [not_not] at hroot
      rw [← hroot] at hq ⊢
      exact column_eq_ok.mp hq

theorem root_self {fuel v r : ℕ} (hv : t.parent[v]? = some v) (h : t.root fuel v = .ok r) : r = v := by
  cases fuel with
  | zero => cases h
  | succ fuel =>
    rw [root] at h
    obtain ⟨q, hq, h⟩ := bind_eq_ok.mp h
    rw [column_eq_ok, hv] at hq
    obtain rfl := Option.some.inj hq
    rw [if_neg (by simp)] at h
    exact (Except.ok.inj h).symm

theorem shallow_open {fuel r : ℕ} {ty : Ty} (h : t.shallow fuel ty = .ok (.infer r)) : t.Open r := by
  induction fuel generalizing ty with
  | zero => cases h
  | succ fuel ih =>
    cases ty with
    | infer v =>
      rw [shallow] at h
      obtain ⟨q, hq, h⟩ := bind_eq_ok.mp h
      obtain ⟨b, hb, h⟩ := bind_eq_ok.mp h
      cases b with
      | some b => exact ih h
      | none =>
        obtain rfl := infer.inj (Except.ok.inj h)
        exact ⟨root_spec hq, column_eq_ok.mp hb⟩
    | _ => cases h

variable {fuel : ℕ} {ty ty' : Ty}

theorem shallow_varsIn (ht : t.Holds p) (hty : ty.VarsIn p) (h : t.shallow fuel ty = .ok ty')
    : ty'.VarsIn p := by
  induction fuel generalizing ty with
  | zero => cases h
  | succ fuel ih =>
    cases ty with
    | infer v =>
      rw [shallow] at h
      obtain ⟨q, hq, h⟩ := bind_eq_ok.mp h
      obtain ⟨b, hb, h⟩ := bind_eq_ok.mp h
      cases b with
      | some b => exact ih (ht.bound b (mem_of_getElem? (column_eq_ok.mp hb))) h
      | none =>
        obtain rfl := Except.ok.inj h
        exact varsIn_infer.mpr (ht.vars q (List.getElem?_eq_some_iff.mp (root_spec hq)).1)
    | _ =>
      obtain rfl := Except.ok.inj h
      exact hty

variable {pool : Pool}

variable {f : Ty → Except Halt Ty}

theorem resolveRow_varsIn {r' : RowData Ty} (hf : ∀ k ∈ r.keys, ∀ k', f k = .ok k' → k'.VarsIn p)
    (h : resolveRow pool f r = .ok r') :
    ∀ k ∈ r'.keys, k.VarsIn p := by
  unfold resolveRow at h
  split at h
  · obtain ⟨keys, hkeys, h⟩ := bind_eq_ok.mp h
    obtain rfl := Except.ok.inj h
    refine Pool.varsIn_row fun k hk => ?_
    obtain ⟨j, hj, hjk⟩ := mapM_eq_ok hkeys k hk
    exact hf j hj k hjk
  · next hno =>
    obtain rfl := Except.ok.inj h
    intro k hk
    apply varsIn_of_not_hasInfer
    rw [any_eq_true, not_exists] at hno
    exact Bool.eq_false_iff.mpr fun h => hno k ⟨hk, h⟩

/-- What a type is made of is resolved, part by part. -/
theorem resolveParts_varsIn (hown : ty.isInfer = false) (hf : ∀ a b, f a = .ok b → b.VarsIn p)
    (h : resolveParts pool f ty = .ok ty') :
    ty'.VarsIn p := by
  have hlist : ∀ {l l' : List Ty}, l.mapM f = .ok l' → ∀ c ∈ l', c.VarsIn p := fun hl c hc =>
    let ⟨a, _, ha⟩ := mapM_eq_ok hl c hc
    hf a c ha
  have hrow : ∀ {r r' : RowData Ty}, resolveRow pool f r = .ok r' → ∀ k ∈ r'.keys, k.VarsIn p :=
    fun hr => resolveRow_varsIn (fun k _ => hf k) hr
  cases ty with
  | infer v => cases hown
  | adt d args =>
    obtain ⟨args', hargs, h⟩ := bind_eq_ok.mp h
    obtain rfl := Except.ok.inj h
    exact varsIn_of_children rfl (hlist hargs)
  | tuple elems rest =>
    obtain ⟨elems', helems, h⟩ := bind_eq_ok.mp h
    cases rest with
    | none =>
      obtain rfl := Except.ok.inj h
      exact varsIn_of_children rfl fun c hc => hlist helems c (by simpa using hc)
    | some r =>
      obtain ⟨rest', hrest, h⟩ := bind_eq_ok.mp h
      obtain ⟨r', hr, hrest⟩ := bind_eq_ok.mp hrest
      obtain rfl := Except.ok.inj hrest
      obtain rfl := Except.ok.inj h
      refine varsIn_of_children rfl fun c hc => ?_
      obtain hc | hc := mem_append.mp hc
      · exact hlist helems c hc
      · obtain rfl := mem_singleton.mp hc
        exact hf r _ hr
  | union members =>
    obtain ⟨members', hmembers, h⟩ := bind_eq_ok.mp h
    obtain rfl := Except.ok.inj h
    exact varsIn_of_children rfl (hlist hmembers)
  | option i =>
    obtain ⟨i', hi, h⟩ := bind_eq_ok.mp h
    obtain rfl := Except.ok.inj h
    exact varsIn_of_children rfl fun c hc => mem_singleton.mp hc ▸ hf i i' hi
  | mut_ i =>
    obtain ⟨i', hi, h⟩ := bind_eq_ok.mp h
    obtain rfl := Except.ok.inj h
    exact varsIn_of_children rfl fun c hc => mem_singleton.mp hc ▸ hf i i' hi
  | ref i mutable counted =>
    obtain ⟨i', hi, h⟩ := bind_eq_ok.mp h
    obtain rfl := Except.ok.inj h
    exact varsIn_of_children rfl fun c hc => mem_singleton.mp hc ▸ hf i i' hi
  | fn params result r suspends inputs deps =>
    obtain ⟨params', hparams, h⟩ := bind_eq_ok.mp h
    obtain ⟨result', hresult, h⟩ := bind_eq_ok.mp h
    obtain ⟨r', hr, h⟩ := bind_eq_ok.mp h
    obtain rfl := Except.ok.inj h
    refine varsIn_of_children rfl fun c hc => ?_
    rw [children, mem_append, mem_cons] at hc
    obtain hc | rfl | hc := hc
    · exact hlist hparams c hc
    · exact hf result c hresult
    · exact hrow hr c hc
  | row r =>
    obtain ⟨r', hr, h⟩ := bind_eq_ok.mp h
    obtain rfl := Except.ok.inj h
    exact varsIn_of_children rfl (hrow hr)
  | context r =>
    obtain ⟨r', hr, h⟩ := bind_eq_ok.mp h
    obtain rfl := Except.ok.inj h
    exact varsIn_of_children rfl (hrow hr)
  | traitValue d args bindings =>
    obtain ⟨args', hargs, h⟩ := bind_eq_ok.mp h
    obtain ⟨bindings', hbindings, h⟩ := bind_eq_ok.mp h
    obtain rfl := Except.ok.inj h
    refine varsIn_of_children rfl fun c hc => ?_
    obtain hc | hc := mem_append.mp hc
    · exact hlist hargs c hc
    · obtain ⟨b', hb', rfl⟩ := mem_map.mp hc
      obtain ⟨b, -, hb⟩ := mapM_eq_ok hbindings b' hb'
      obtain ⟨u, hu, hb⟩ := bind_eq_ok.mp hb
      obtain rfl := Except.ok.inj hb
      exact hf b.2 u hu
  | opaque_ owner site borrows args bound =>
    obtain ⟨args', hargs, h⟩ := bind_eq_ok.mp h
    obtain ⟨bound', hbound, h⟩ := bind_eq_ok.mp h
    obtain rfl := Except.ok.inj h
    refine varsIn_of_children rfl fun c hc => ?_
    obtain rfl | hc := mem_cons.mp hc
    · exact hf bound c hbound
    · exact hlist hargs c hc
  | assoc a trait_ selfTy args =>
    obtain ⟨selfTy', hself, h⟩ := bind_eq_ok.mp h
    obtain ⟨args', hargs, h⟩ := bind_eq_ok.mp h
    obtain rfl := Except.ok.inj h
    refine varsIn_of_children rfl fun c hc => ?_
    obtain rfl | hc := mem_cons.mp hc
    · exact hf selfTy c hself
    · exact hlist hargs c hc
  | _ =>
    obtain rfl := Except.ok.inj h
    exact varsIn_of_children rfl fun c hc => absurd hc not_mem_nil

/-- **Resolving** leaves open variables only. -/
theorem resolve_open (h : t.resolve pool fuel ty = .ok ty') :
    ty'.VarsIn t.Open := by
  induction fuel generalizing ty ty' with
  | zero => cases h
  | succ fuel ih =>
    rw [resolve] at h
    obtain ⟨s, hs, h⟩ := bind_eq_ok.mp h
    split at h
    · obtain ⟨d, hd, h⟩ := bind_eq_ok.mp h
      obtain rfl := Except.ok.inj h
      apply Pool.varsIn_internTy
      cases hown : s.isInfer with
      | false => exact resolveParts_varsIn hown (fun _ _ => ih) hd
      | true =>
        cases s with
        | infer r =>
          obtain rfl := Except.ok.inj hd
          exact varsIn_infer.mpr (shallow_open hs)
        | _ => cases hown
    · next hno =>
      obtain rfl := Except.ok.inj h
      exact varsIn_of_not_hasInfer (Bool.eq_false_iff.mpr hno)

end InferTable
end HdLang.Types
