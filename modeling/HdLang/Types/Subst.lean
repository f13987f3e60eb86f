import HdLang.Types.Model

/-!
# Substitution

`Types::subst` and `Types::subst_row`, and what they are on interned types. A type is interned when
building it again, or any type in it, changes nothing. On these the early exits of a substitution make
no difference, so it replaces what a type is made of and builds the type again (`subst_eq`); and a
substitution goes under the building of a type (`subst_internTy`). Substituting twice is therefore
substituting once what the first map gives, substituted (`subst_subst`).
-/

namespace HdLang.Types

open List Bool Ty SortedSet

namespace Ty

/-- Whether a type itself is or lists a declared parameter. -/
def ownParam : Ty → Bool
  | .param _ => true
  | .fn _ _ r _ _ _ => !r.params.isEmpty
  | .row r => !r.params.isEmpty
  | .context r => !r.params.isEmpty
  | _ => false

def hasParam (t : Ty) : Bool := t.parts.any ownParam

theorem hasParam_eq (t : Ty) : t.hasParam = (t.ownParam || t.children.any hasParam) := by
  have hany : (fun c : Ty => c.parts.any ownParam) = hasParam := rfl
  rw [hasParam, parts_eq, any_cons, any_flatMap, hany]

/-- The rows that a type lists. -/
def rows : Ty → List (RowData Ty)
  | .fn _ _ r _ _ _ => [r]
  | .row r => [r]
  | .context r => [r]
  | _ => []

/-- A type with other parts and other rows. -/
def mapParts (g : Ty → Ty) (gr : RowData Ty → RowData Ty) : Ty → Ty
  | .adt d args => .adt d (args.map g)
  | .tuple elems rest => .tuple (elems.map g) (rest.map g)
  | .union members => .union (members.map g)
  | .option inner => .option (g inner)
  | .fn params result r suspends inputs deps =>
    .fn (params.map g) (g result) (gr r) suspends inputs deps
  | .traitValue d args bindings => .traitValue d (args.map g) (bindings.map fun b => (b.1, g b.2))
  | .opaque_ owner site borrows args bound => .opaque_ owner site borrows (args.map g) (g bound)
  | .assoc a t selfTy args => .assoc a t (g selfTy) (args.map g)
  | .mut_ inner => .mut_ (g inner)
  | .ref inner mutable counted => .ref (g inner) mutable counted
  | .row r => .row (gr r)
  | .context r => .context (gr r)
  | t => t

end Ty

/-- Whether a row lists or mentions a declared parameter. -/
def RowData.hasParam (r : RowData Ty) : Bool := !r.params.isEmpty || r.keys.any Ty.hasParam

namespace Pool

variable (pool : Pool) (f : ParamRef → Option Ty)

/-- A row with its keys substituted: a declared parameter's argument joins the keys. -/
def joined (keys : List Ty) (params : List ParamRef) : RowData Ty where
  keys := keys ++ params.filterMap f
  params := params.filter fun p => (f p).isNone

/-- `Types::subst_row`, given the row's keys substituted. -/
def substRowWith (keys : List Ty) (r : RowData Ty) : RowData Ty :=
  if r.hasParam then pool.row (joined f keys r.params) else r

/-- What `subst` gives for `t`, of whose parts `t'` is made. -/
def rebuilt (t t' : Ty) : Ty := if t.hasParam then internTy t' else t

mutual

def subst : Ty → Ty
  | .param p => (f p).getD (.param p)
  | .opaque_ owner site borrows args bound =>
    rebuilt (.opaque_ owner site borrows args bound)
      (.opaque_ owner site borrows (substList args) (subst bound))
  | .adt d args => rebuilt (.adt d args) (.adt d (substList args))
  | .tuple elems none => rebuilt (.tuple elems none) (.tuple (substList elems) none)
  | .tuple elems (some r) =>
    rebuilt (.tuple elems (some r)) (.tuple (substList elems) (some (subst r)))
  | .union members => rebuilt (.union members) (.union (substList members))
  | .option i => rebuilt (.option i) (.option (subst i))
  | .mut_ i => rebuilt (.mut_ i) (.mut_ (subst i))
  | .ref inner mutable counted =>
    rebuilt (.ref inner mutable counted) (.ref (subst inner) mutable counted)
  | .fn params result ⟨keys, ps⟩ suspends inputs deps =>
    rebuilt (.fn params result ⟨keys, ps⟩ suspends inputs deps)
      (.fn (substList params) (subst result) (substRowWith pool f (substList keys) ⟨keys, ps⟩)
        suspends inputs deps)
  | .row ⟨keys, ps⟩ =>
    rebuilt (.row ⟨keys, ps⟩) (.row (substRowWith pool f (substList keys) ⟨keys, ps⟩))
  | .context ⟨keys, ps⟩ =>
    rebuilt (.context ⟨keys, ps⟩) (.context (substRowWith pool f (substList keys) ⟨keys, ps⟩))
  | .traitValue d args bindings =>
    rebuilt (.traitValue d args bindings)
      (.traitValue d (substList args) (substBindings bindings))
  | .assoc a t selfTy args =>
    rebuilt (.assoc a t selfTy args) (.assoc a t (subst selfTy) (substList args))
  | other => other
termination_by structural t => t

def substList : List Ty → List Ty
  | [] => []
  | t :: ts => subst t :: substList ts
termination_by structural ts => ts

def substBindings : List (DefId × Ty) → List (DefId × Ty)
  | [] => []
  | (d, t) :: ts => (d, subst t) :: substBindings ts
termination_by structural ts => ts

end

def substRow (r : RowData Ty) : RowData Ty := substRowWith pool f (r.keys.map (pool.subst f)) r

theorem substList_eq (ts : List Ty) : pool.substList f ts = ts.map (pool.subst f) := by
  induction ts with
  | nil => rfl
  | cons t ts ih => rw [substList, ih, map_cons]

theorem substBindings_eq (ts : List (DefId × Ty)) :
    pool.substBindings f ts = ts.map fun b => (b.1, pool.subst f b.2) := by
  induction ts with
  | nil => rfl
  | cons p ts ih => rw [substBindings, ih, map_cons]

variable {t : Ty}

/-- A substitution replaces what a type is made of. -/
theorem subst_rebuilt (h : ∀ p, t ≠ .param p) :
    pool.subst f t = rebuilt t (t.mapParts (pool.subst f) (pool.substRow f)) := by
  cases t with
  | param p => exact absurd rfl (h p)
  | tuple elems rest => cases rest <;> simp [subst, mapParts, substList_eq]
  | _ => first
    | rfl
    | simp [subst, mapParts, substList_eq, substBindings_eq, substRow]

theorem subst_of_not_hasParam {t : Ty} (h : t.hasParam = false) : pool.subst f t = t := by
  have hne : ∀ p, t ≠ .param p := by
    rintro p rfl
    cases h
  rw [subst_rebuilt pool f hne, rebuilt, h]
  rfl

/-! ### Interned types -/

/-- Building a row again changes nothing, and none of its keys is a row. -/
structure RowSettled (r : RowData Ty) : Prop where
  row : pool.row r = r
  flat : ∀ k ∈ r.keys, ∀ s, k ≠ .row s

/-- Building a type again changes nothing. -/
structure Settled (t : Ty) : Prop where
  intern : internTy t = t
  rows : ∀ r ∈ t.rows, pool.RowSettled r

/-- A type as the pool has it: it and every type in it was built. -/
def IsInterned (t : Ty) : Prop := ∀ u ∈ t.parts, pool.Settled u

/-- A row as the pool has it. -/
structure IsInternedRow (r : RowData Ty) : Prop where
  settled : pool.RowSettled r
  keys : ∀ k ∈ r.keys, pool.IsInterned k

variable {pool} {f}

theorem isInterned_iff :
    pool.IsInterned t ↔ pool.Settled t ∧ ∀ c ∈ t.children, pool.IsInterned c := by
  have hparts : ∀ u, u ∈ t.parts ↔ u = t ∨ ∃ c ∈ t.children, u ∈ c.parts := fun u => by
    rw [parts_eq, mem_cons, mem_flatMap]
  constructor
  · intro h
    exact ⟨h t ((hparts t).mpr (.inl rfl)), fun c hc u hu => h u ((hparts u).mpr (.inr ⟨c, hc, hu⟩))⟩
  · rintro ⟨hown, hin⟩ u hu
    obtain rfl | ⟨c, hc, hu⟩ := (hparts u).mp hu
    · exact hown
    · exact hin c hc u hu

variable {c : Ty}

theorem IsInterned.child (h : pool.IsInterned t) (hc : c ∈ t.children) :
    pool.IsInterned c :=
  (isInterned_iff.mp h).2 c hc

variable {k : Ty} {r : RowData Ty}

theorem mem_children_of_rows (hr : r ∈ t.rows) (hk : k ∈ r.keys) :
    k ∈ t.children := by
  cases t with
  | fn params result r' suspends inputs deps =>
    obtain rfl := mem_singleton.mp hr
    exact mem_append_right _ (mem_cons_of_mem _ hk)
  | row r' =>
    obtain rfl := mem_singleton.mp hr
    exact hk
  | context r' =>
    obtain rfl := mem_singleton.mp hr
    exact hk
  | _ => exact absurd hr not_mem_nil

theorem IsInterned.row (h : pool.IsInterned t) (hr : r ∈ t.rows) :
    pool.IsInternedRow r :=
  ⟨(isInterned_iff.mp h).1.rows r hr, fun _ hk => h.child (mem_children_of_rows hr hk)⟩

/-! ### Rows -/

instance : Std.Total pool.keyLe := ⟨fun _ _ => Nat.le_total _ _⟩

instance : IsTrans Ty pool.keyLe := ⟨fun _ _ _ => Nat.le_trans⟩

instance : Std.Antisymm pool.keyLe := ⟨fun _ _ h h' => pool.injective (Nat.le_antisymm h h')⟩

instance : Std.Total paramLe := ⟨fun p q => by
  obtain h | h | h := Nat.lt_trichotomy p.owner q.owner
  · exact .inl (.inl h)
  · obtain hi | hi := Nat.le_total p.index q.index
    · exact .inl (.inr ⟨h, hi⟩)
    · exact .inr (.inr ⟨h.symm, hi⟩)
  · exact .inr (.inl h)⟩

instance : IsTrans ParamRef paramLe := ⟨fun p q s h h' => by
  obtain h | ⟨h, hi⟩ := h
  · obtain h' | ⟨h', -⟩ := h'
    · exact .inl (Nat.lt_trans h h')
    · exact .inl (h' ▸ h)
  · obtain h' | ⟨h', hi'⟩ := h'
    · exact .inl (h ▸ h')
    · exact .inr ⟨h.trans h', Nat.le_trans hi hi'⟩⟩

instance : Std.Antisymm paramLe := ⟨fun p q h h' => by
  obtain h | ⟨h, hi⟩ := h
  · obtain h' | ⟨h', -⟩ := h'
    · exact absurd h' (Nat.lt_asymm h)
    · exact absurd h (h' ▸ Nat.lt_irrefl _)
  · obtain h' | ⟨-, hi'⟩ := h'
    · exact absurd h' (h ▸ Nat.lt_irrefl _)
    · exact ParamRef.ext h (Nat.le_antisymm hi hi')⟩

/-- Rows with the same keys and parameters, once the keys that are rows are flattened, are one row. -/
theorem row_congr {s : RowData Ty} (hkeys : ∀ k, k ∈ r.keys.flatMap keysOf ↔ k ∈ s.keys.flatMap keysOf)
    (hparams : ∀ p, (p ∈ r.params ∨ p ∈ r.keys.flatMap paramsOf) ↔
      (p ∈ s.params ∨ p ∈ s.keys.flatMap paramsOf)) : pool.row r = pool.row s := by
  refine RowData.ext (ofList_congr _ hkeys) (ofList_congr _ fun p => ?_)
  rw [mem_append, mem_append]
  exact hparams p

theorem mem_row_keys :
    k ∈ (pool.row r).keys ↔ ∃ j ∈ r.keys, k ∈ keysOf j := by
  rw [row, mem_ofList, mem_flatMap]

variable {p : ParamRef}

theorem mem_row_params :
    p ∈ (pool.row r).params ↔ p ∈ r.params ∨ ∃ j ∈ r.keys, p ∈ paramsOf j := by
  rw [row, mem_ofList, mem_append, mem_flatMap]

theorem keysOf_of_ne {k : Ty} (h : ∀ s, k ≠ .row s) : keysOf k = [k] := by
  cases k with
  | row s => exact absurd rfl (h s)
  | _ => rfl

theorem paramsOf_of_ne {k : Ty} (h : ∀ s, k ≠ .row s) : paramsOf k = [] := by
  cases k with
  | row s => exact absurd rfl (h s)
  | _ => rfl

variable {j : Ty}

/-- What an interned key stands for is interned and no row. -/
theorem interned_keysOf (hj : pool.IsInterned j) (hk : k ∈ keysOf j) :
    pool.IsInterned k ∧ ∀ s, k ≠ .row s := by
  by_cases hrow : ∃ s, j = .row s
  · obtain ⟨s, rfl⟩ := hrow
    have hs := hj.row mem_cons_self
    exact ⟨hs.keys k hk, hs.settled.flat k hk⟩
  · rw [not_exists] at hrow
    rw [keysOf_of_ne hrow, mem_singleton] at hk
    rw [hk]
    exact ⟨hj, hrow⟩

/-- **A row of interned keys** is interned. -/
theorem interned_row (h : ∀ k ∈ r.keys, pool.IsInterned k) :
    pool.IsInternedRow (pool.row r) := by
  have hkeys : ∀ k ∈ (pool.row r).keys, pool.IsInterned k ∧ ∀ s, k ≠ .row s := fun k hk => by
    obtain ⟨j, hj, hkj⟩ := mem_row_keys.mp hk
    exact interned_keysOf (h j hj) hkj
  refine ⟨⟨?_, fun k hk => (hkeys k hk).2⟩, fun k hk => (hkeys k hk).1⟩
  have hself : (pool.row r).keys.flatMap keysOf = (pool.row r).keys := by
    conv_rhs => rw [← flatMap_singleton' (pool.row r).keys]
    exact flatMap_congr fun k hk => keysOf_of_ne (hkeys k hk).2
  have hnone : (pool.row r).keys.flatMap paramsOf = [] :=
    flatMap_eq_nil_iff.mpr fun k hk => paramsOf_of_ne (hkeys k hk).2
  refine RowData.ext ?_ ?_
  · rw [row, hself]
    exact ofList_ofList _ _
  · rw [row, hnone, append_nil]
    exact ofList_ofList _ _

/-! ### Building types -/

/-- The order of a trait value's bindings. -/
def bindingLe (a b : DefId × Ty) : Prop := a.1 ≤ b.1

instance : DecidableRel bindingLe := fun _ _ => inferInstanceAs (Decidable (_ ≤ _))

instance : Std.Total bindingLe := ⟨fun _ _ => Nat.le_total _ _⟩

instance : IsTrans (DefId × Ty) bindingLe := ⟨fun _ _ _ => Nat.le_trans⟩

theorem internTy_traitValue (d : DefId) (args : List Ty) (bindings : List (DefId × Ty)) :
    internTy (.traitValue d args bindings) = .traitValue d args (bindings.insertionSort bindingLe) :=
  rfl

/-- What building a type changes: a function type over a tuple of inputs, and the order of a trait
value's bindings. -/
theorem internTy_cases {P : Ty → Ty → Prop} (t : Ty)
    (fixed : ∀ elems result r suspends deps, P (.fn [.tuple elems none] result r suspends .tuple deps)
      (.fn elems result r suspends .fixed deps))
    (rest : ∀ elems last result r suspends deps,
      P (.fn [.tuple elems (some last)] result r suspends .tuple deps)
        (.fn (elems ++ [last]) result r suspends .rest deps))
    (traitValue : ∀ d args bindings, P (.traitValue d args bindings)
      (.traitValue d args (bindings.insertionSort bindingLe))) (same : internTy t = t → P t t)
    : P t (internTy t) := by
  by_cases hsame : internTy t = t
  · rw [hsame]
    exact same hsame
  · unfold internTy at hsame ⊢
    split
    · exact fixed ..
    · exact rest ..
    · exact traitValue ..
    · next h₁ h₂ h₃ => exact absurd (by simp only) hsame

theorem internTy_fn_of_ne {params : List Ty} {result : Ty} {suspends : Bool} {inputs : Inputs}
    {deps : FnDeps} (h : inputs ≠ .tuple) :
    internTy (.fn params result r suspends inputs deps) = .fn params result r suspends inputs deps := by
  unfold internTy
  split
  · next heq => exact absurd (by injection heq) h
  · next heq => exact absurd (by injection heq) h
  · next heq => cases heq
  · rfl

theorem internTy_internTy (t : Ty) : internTy (internTy t) = internTy t := by
  refine internTy_cases (P := fun _ u => internTy u = u) t (fun elems result r suspends deps => ?_)
    (fun elems last result r suspends deps => ?_) (fun d args bindings => ?_) id
  · exact internTy_fn_of_ne (by decide)
  · exact internTy_fn_of_ne (by decide)
  · rw [internTy_traitValue, (pairwise_insertionSort bindingLe bindings).insertionSort_eq]

/-- **Building a type** of interned parts gives an interned type. -/
theorem interned_internTy (h : ∀ c ∈ t.children, pool.IsInterned c)
    (hrows : ∀ r ∈ t.rows, pool.RowSettled r) : pool.IsInterned (internTy t) := by
  have hparts : (∀ c ∈ (internTy t).children, pool.IsInterned c) ∧
      ∀ r ∈ (internTy t).rows, pool.RowSettled r := by
    refine internTy_cases (P := fun t u => (∀ c ∈ t.children, pool.IsInterned c) →
      (∀ r ∈ t.rows, pool.RowSettled r) → (∀ c ∈ u.children, pool.IsInterned c) ∧
        ∀ r ∈ u.rows, pool.RowSettled r) t ?_ ?_ ?_ (fun _ h hrows => ⟨h, hrows⟩) h hrows
    · intro elems result r suspends deps h hrows
      refine ⟨fun c hc => ?_, hrows⟩
      obtain hc | hc := mem_append.mp hc
      · exact (h _ mem_cons_self).child (mem_append_left _ hc)
      · exact h c (mem_cons_of_mem _ hc)
    · intro elems last result r suspends deps h hrows
      refine ⟨fun c hc => ?_, hrows⟩
      obtain hc | hc := mem_append.mp hc
      · exact (h _ mem_cons_self).child hc
      · exact h c (mem_cons_of_mem _ hc)
    · intro d args bindings h hrows
      refine ⟨fun c hc => ?_, hrows⟩
      obtain hc | hc := mem_append.mp hc
      · exact h c (mem_append_left _ hc)
      · obtain ⟨b, hb, rfl⟩ := mem_map.mp hc
        rw [mem_insertionSort] at hb
        exact h _ (mem_append_right _ (mem_map_of_mem hb))
  exact isInterned_iff.mpr ⟨⟨internTy_internTy t, hparts.2⟩, hparts.1⟩

/-! ### Substituting in interned types -/

theorem hasParam_false_of_child (h : t.hasParam = false) (hc : c ∈ t.children) :
    c.hasParam = false := by
  rw [hasParam_eq, or_eq_false_iff, any_eq_false] at h
  exact eq_false_iff.mpr (h.2 c hc)

theorem hasParam_false_of_row (h : t.hasParam = false) (hr : r ∈ t.rows) :
    r.hasParam = false := by
  have hown : r.params.isEmpty = true := by
    rw [hasParam_eq, or_eq_false_iff] at h
    have := h.1
    cases t with
    | fn params result r' suspends inputs deps =>
      obtain rfl := mem_singleton.mp hr
      simpa [ownParam] using this
    | row r' =>
      obtain rfl := mem_singleton.mp hr
      simpa [ownParam] using this
    | context r' =>
      obtain rfl := mem_singleton.mp hr
      simpa [ownParam] using this
    | _ => exact absurd hr not_mem_nil
  rw [RowData.hasParam, hown, Bool.not_true, Bool.false_or, any_eq_false]
  exact fun k hk => eq_false_iff.mp (hasParam_false_of_child h (mem_children_of_rows hr hk))

/-- On an interned row the early exit makes no difference. -/
theorem substRow_eq (h : pool.IsInternedRow r) :
    pool.substRow f r = pool.row (joined f (r.keys.map (pool.subst f)) r.params) := by
  unfold substRow substRowWith
  split
  · rfl
  · next hno =>
    rw [not_eq_true, RowData.hasParam, or_eq_false_iff, any_eq_false] at hno
    have hparams : r.params = [] := by
      have := hno.1
      rw [not_eq_false', List.isEmpty_iff] at this
      exact this
    have hkeys : r.keys.map (pool.subst f) = r.keys :=
      (map_congr_left fun k hk =>
        subst_of_not_hasParam pool f (eq_false_iff.mpr (hno.2 k hk))).trans (map_id' _)
    rw [hkeys, hparams]
    have hjoined : joined f r.keys [] = r := RowData.ext (append_nil _) hparams.symm
    rw [hjoined, h.settled.row]

variable {gr : RowData Ty → RowData Ty}

variable {g' : Ty → Ty} {gr' : RowData Ty → RowData Ty}

theorem mapParts_congr {g : Ty → Ty} (h : ∀ c ∈ t.children, g c = g' c)
    (hrows : ∀ r ∈ t.rows, gr r = gr' r) :
    t.mapParts g gr = t.mapParts g' gr' := by
  have hlist : ∀ {l : List Ty}, (∀ c ∈ l, c ∈ t.children) → l.map g = l.map g' := fun hl =>
    map_congr_left fun c hc => h c (hl c hc)
  cases t with
  | adt d args => exact congrArg _ (hlist fun _ => id)
  | tuple elems rest =>
    have hrest : rest.map g = rest.map g' := by
      cases rest with
      | none => rfl
      | some r => exact congrArg some (h r (by simp))
    rw [mapParts, mapParts, hlist fun _ => mem_append_left _, hrest]
  | union members => exact congrArg _ (hlist fun _ => id)
  | option inner => exact congrArg _ (h inner mem_cons_self)
  | fn params result r suspends inputs deps =>
    rw [mapParts, mapParts, hlist fun _ => mem_append_left _, hrows r mem_cons_self,
      h result (mem_append_right _ mem_cons_self)]
  | traitValue d args bindings =>
    have hbindings : bindings.map (fun b => (b.1, g b.2)) = bindings.map fun b => (b.1, g' b.2) :=
      map_congr_left fun b hb => Prod.ext rfl (h b.2 (mem_append_right _ (mem_map_of_mem hb)))
    rw [mapParts, mapParts, hlist fun _ => mem_append_left _, hbindings]
  | opaque_ owner site borrows args bound =>
    rw [mapParts, mapParts, hlist fun _ => mem_cons_of_mem _, h bound mem_cons_self]
  | assoc a t selfTy args =>
    rw [mapParts, mapParts, hlist fun _ => mem_cons_of_mem _, h selfTy mem_cons_self]
  | mut_ inner => exact congrArg _ (h inner mem_cons_self)
  | ref inner mutable counted => exact congrArg (ref · mutable counted) (h inner mem_cons_self)
  | row r => exact congrArg _ (hrows r mem_cons_self)
  | context r => exact congrArg _ (hrows r mem_cons_self)
  | _ => rfl

theorem mapParts_id {g : Ty → Ty} (h : ∀ c ∈ t.children, g c = c) (hrows : ∀ r ∈ t.rows, gr r = r)
    : t.mapParts g gr = t := by
  have hsame : t.mapParts g gr = t.mapParts id id := mapParts_congr h hrows
  rw [hsame]
  cases t with
  | tuple elems rest => cases rest <;> simp [mapParts]
  | _ => simp [mapParts]

theorem mapParts_mapParts {g : Ty → Ty} (t : Ty) :
    (t.mapParts g gr).mapParts g' gr' = t.mapParts (g' ∘ g) (gr' ∘ gr) := by
  cases t with
  | tuple elems rest => cases rest <;> simp [mapParts]
  | _ => simp [mapParts]

theorem children_mapParts {g : Ty → Ty} (hc : c ∈ (t.mapParts g gr).children) :
    (∃ b ∈ t.children, c = g b) ∨ ∃ r ∈ t.rows, c ∈ (gr r).keys := by
  have hlist : ∀ {l : List Ty}, c ∈ l.map g → (∀ b ∈ l, b ∈ t.children) → ∃ b ∈ t.children, c = g b :=
    fun hc hl =>
      let ⟨b, hb, hbc⟩ := mem_map.mp hc
      ⟨b, hl b hb, hbc.symm⟩
  have hone : ∀ {b : Ty}, c ∈ [g b] → b ∈ t.children → ∃ b ∈ t.children, c = g b := fun hc hb =>
    ⟨_, hb, mem_singleton.mp hc⟩
  cases t with
  | adt d args => exact .inl (hlist hc fun _ => id)
  | tuple elems rest =>
    obtain hc | hc := mem_append.mp hc
    · exact .inl (hlist hc fun _ => mem_append_left _)
    · cases rest with
      | none => exact absurd hc not_mem_nil
      | some r => exact .inl (hone hc (by simp))
  | union members => exact .inl (hlist hc fun _ => id)
  | option inner => exact .inl (hone hc mem_cons_self)
  | fn params result r suspends inputs deps =>
    obtain hc | hc := mem_append.mp hc
    · exact .inl (hlist hc fun _ => mem_append_left _)
    · obtain rfl | hc := mem_cons.mp hc
      · exact .inl ⟨result, mem_append_right _ mem_cons_self, rfl⟩
      · exact .inr ⟨r, mem_cons_self, hc⟩
  | traitValue d args bindings =>
    obtain hc | hc := mem_append.mp hc
    · exact .inl (hlist hc fun _ => mem_append_left _)
    · rw [map_map] at hc
      obtain ⟨b, hb, rfl⟩ := mem_map.mp hc
      exact .inl ⟨b.2, mem_append_right _ (mem_map_of_mem hb), rfl⟩
  | opaque_ owner site borrows args bound =>
    obtain rfl | hc := mem_cons.mp hc
    · exact .inl ⟨bound, mem_cons_self, rfl⟩
    · exact .inl (hlist hc fun _ => mem_cons_of_mem _)
  | assoc a t selfTy args =>
    obtain rfl | hc := mem_cons.mp hc
    · exact .inl ⟨selfTy, mem_cons_self, rfl⟩
    · exact .inl (hlist hc fun _ => mem_cons_of_mem _)
  | mut_ inner => exact .inl (hone hc mem_cons_self)
  | ref inner mutable counted => exact .inl (hone hc mem_cons_self)
  | row r => exact .inr ⟨r, mem_cons_self, hc⟩
  | context r => exact .inr ⟨r, mem_cons_self, hc⟩
  | _ => exact absurd hc not_mem_nil

theorem rows_mapParts {g : Ty → Ty} (t : Ty) :
    (t.mapParts g gr).rows = t.rows.map gr := by
  cases t <;> rfl

/-- **Substituting** in an interned type replaces what it is made of and builds it again. -/
theorem subst_eq (h : pool.IsInterned t) (hne : ∀ p, t ≠ .param p) :
    pool.subst f t = internTy (t.mapParts (pool.subst f) (pool.substRow f)) := by
  rw [subst_rebuilt pool f hne, rebuilt]
  split
  · rfl
  · next hno =>
    rw [not_eq_true] at hno
    have hsame : t.mapParts (pool.subst f) (pool.substRow f) = t := by
      refine mapParts_id (fun c hc => subst_of_not_hasParam _ _ (hasParam_false_of_child hno hc))
        fun r hr => ?_
      rw [substRow, substRowWith, if_neg]
      rw [hasParam_false_of_row hno hr]
      exact Bool.false_ne_true
    rw [hsame, (isInterned_iff.mp h).1.intern]

section Interned

variable {g : ParamRef → Option Ty} (hf : ∀ p u, f p = some u → pool.IsInterned u)

variable {keys : List Ty} {ps : List ParamRef}

theorem mem_joined_keys :
    j ∈ (joined f keys ps).keys ↔ j ∈ keys ∨ ∃ p ∈ ps, f p = some j := by
  rw [joined, mem_append, mem_filterMap]

theorem mem_joined_params :
    p ∈ (joined f keys ps).params ↔ p ∈ ps ∧ f p = none := by
  rw [joined, mem_filter, Option.isNone_iff_eq_none]

include hf

theorem interned_substRow (hr : pool.IsInternedRow r)
    (hkeys : ∀ k ∈ r.keys, pool.IsInterned (pool.subst f k)) :
    pool.IsInternedRow (pool.substRow f r) := by
  rw [substRow_eq hr]
  refine interned_row fun k hk => ?_
  obtain hk | ⟨p, -, hp⟩ := mem_joined_keys.mp hk
  · obtain ⟨j, hj, rfl⟩ := mem_map.mp hk
    exact hkeys j hj
  · exact hf p k hp

/-- Parts that are interned give, substituted, interned parts and rows. -/
theorem interned_mapParts (ht : pool.IsInterned t)
    (h : ∀ c ∈ t.children, pool.IsInterned (pool.subst f c)) :
    (∀ c ∈ (t.mapParts (pool.subst f) (pool.substRow f)).children, pool.IsInterned c) ∧
      ∀ r ∈ (t.mapParts (pool.subst f) (pool.substRow f)).rows, pool.RowSettled r := by
  have hrow : ∀ r ∈ t.rows, pool.IsInternedRow (pool.substRow f r) := fun r hr =>
    interned_substRow hf (ht.row hr) fun k hk => h k (mem_children_of_rows hr hk)
  constructor
  · intro c hc
    obtain ⟨b, hb, rfl⟩ | ⟨r, hr, hc⟩ := children_mapParts hc
    · exact h b hb
    · exact (hrow r hr).keys c hc
  · intro r hr
    rw [rows_mapParts] at hr
    obtain ⟨s, hs, rfl⟩ := mem_map.mp hr
    exact (hrow s hs).settled

/-- **A substitution** of interned types in an interned type gives an interned type. -/
theorem interned_subst {t : Ty} (ht : pool.IsInterned t) : pool.IsInterned (pool.subst f t) := by
  induction t using induct with
  | h t ih =>
    by_cases hparam : ∃ p, t = .param p
    · obtain ⟨p, rfl⟩ := hparam
      rw [subst]
      cases hp : f p with
      | none => exact ht
      | some u => exact hf p u hp
    · rw [not_exists] at hparam
      rw [subst_eq ht hparam]
      obtain ⟨hchildren, hrows⟩ := interned_mapParts hf ht fun c hc => ih c hc (ht.child hc)
      exact interned_internTy hchildren hrows

omit hf

/-- **A substitution goes under the building** of a type. -/
theorem subst_internTy (h : ∀ c ∈ t.children, pool.IsInterned c)
    (hrows : ∀ r ∈ t.rows, pool.RowSettled r) (hne : ∀ p, t ≠ .param p) :
    pool.subst g (internTy t) = internTy (t.mapParts (pool.subst g) (pool.substRow g)) := by
  refine internTy_cases (P := fun t u => (∀ c ∈ t.children, pool.IsInterned c) → pool.IsInterned u →
    (∀ p, t ≠ .param p) →
      pool.subst g u = internTy (t.mapParts (pool.subst g) (pool.substRow g))) t ?_ ?_ ?_ ?_ h
    (interned_internTy h hrows) hne
  · intro elems result r suspends deps h hu _
    have htuple : pool.subst g (.tuple elems none) = .tuple (elems.map (pool.subst g)) none :=
      subst_eq (h _ mem_cons_self) fun _ => Ty.noConfusion
    rw [subst_eq hu fun _ => Ty.noConfusion, Ty.mapParts, Ty.mapParts, map_singleton, htuple]
    exact internTy_fn_of_ne (by decide)
  · intro elems last result r suspends deps h hu _
    have htuple : pool.subst g (.tuple elems (some last)) =
        .tuple (elems.map (pool.subst g)) (some (pool.subst g last)) :=
      subst_eq (h _ mem_cons_self) fun _ => Ty.noConfusion
    rw [subst_eq hu fun _ => Ty.noConfusion, Ty.mapParts, Ty.mapParts, map_singleton, htuple,
      map_append]
    exact internTy_fn_of_ne (by decide)
  · intro d args bindings h hu _
    have hsort : (bindings.insertionSort bindingLe).map (fun b => (b.1, pool.subst g b.2)) =
        (bindings.map fun b => (b.1, pool.subst g b.2)).insertionSort bindingLe :=
      map_insertionSort bindingLe bindingLe _ _ fun _ _ _ _ => Iff.rfl
    rw [subst_eq hu fun _ => Ty.noConfusion, Ty.mapParts, Ty.mapParts, internTy_traitValue,
      internTy_traitValue, hsort, (pairwise_insertionSort bindingLe _).insertionSort_eq]
  · intro hsame h hu hne
    exact subst_eq hu hne

/-! ### Substituting twice -/

/-- What substituting with `f` and then with `g` gives for a parameter. -/
def thenSubst (pool : Pool) (f g : ParamRef → Option Ty) (p : ParamRef) : Option Ty :=
  match f p with
  | some u => some (pool.subst g u)
  | none => g p

variable {u : Ty}

/-- The keys that a substituted key stands for: those of the keys it stood for, and those that come
for the parameters that came with it. -/
theorem mem_keysOf_subst (hu : pool.IsInterned u) :
    k ∈ keysOf (pool.subst g u) ↔ (∃ j ∈ keysOf u, k ∈ keysOf (pool.subst g j)) ∨
      ∃ p ∈ paramsOf u, ∃ v, g p = some v ∧ k ∈ keysOf v := by
  by_cases hrow : ∃ s, u = .row s
  · obtain ⟨s, rfl⟩ := hrow
    have hsubst : pool.subst g (.row s) = .row (pool.substRow g s) :=
      subst_eq hu fun _ => Ty.noConfusion
    rw [hsubst, keysOf, substRow_eq (hu.row mem_cons_self), mem_row_keys]
    simp only [mem_joined_keys, mem_map, keysOf, paramsOf]
    constructor
    · rintro ⟨j, ⟨a, ha, rfl⟩ | ⟨p, hp, hj⟩, hk⟩
      · exact .inl ⟨a, ha, hk⟩
      · exact .inr ⟨p, hp, j, hj, hk⟩
    · rintro (⟨a, ha, hk⟩ | ⟨p, hp, j, hj, hk⟩)
      · exact ⟨_, .inl ⟨a, ha, rfl⟩, hk⟩
      · exact ⟨j, .inr ⟨p, hp, hj⟩, hk⟩
  · rw [not_exists] at hrow
    rw [keysOf_of_ne hrow, paramsOf_of_ne hrow]
    simp

theorem mem_paramsOf_subst {q : ParamRef} (hu : pool.IsInterned u) :
    q ∈ paramsOf (pool.subst g u) ↔ (∃ j ∈ keysOf u, q ∈ paramsOf (pool.subst g j)) ∨
      ∃ p ∈ paramsOf u, p = q ∧ g p = none ∨ ∃ v, g p = some v ∧ q ∈ paramsOf v := by
  by_cases hrow : ∃ s, u = .row s
  · obtain ⟨s, rfl⟩ := hrow
    have hsubst : pool.subst g (.row s) = .row (pool.substRow g s) :=
      subst_eq hu fun _ => Ty.noConfusion
    rw [hsubst, paramsOf, substRow_eq (hu.row mem_cons_self), mem_row_params]
    simp only [mem_joined_keys, mem_joined_params, mem_map, keysOf, paramsOf]
    constructor
    · rintro (hq | ⟨j, ⟨a, ha, rfl⟩ | ⟨p, hp, hj⟩, hq⟩)
      · exact .inr ⟨q, hq.1, .inl ⟨rfl, hq.2⟩⟩
      · exact .inl ⟨a, ha, hq⟩
      · exact .inr ⟨p, hp, .inr ⟨j, hj, hq⟩⟩
    · rintro (⟨a, ha, hq⟩ | ⟨p, hp, ⟨rfl, hq⟩ | ⟨j, hj, hq⟩⟩)
      · exact .inr ⟨_, .inl ⟨a, ha, rfl⟩, hq⟩
      · exact .inl ⟨hp, hq⟩
      · exact .inr ⟨j, .inr ⟨p, hp, hj⟩, hq⟩
  · rw [not_exists] at hrow
    rw [keysOf_of_ne hrow, paramsOf_of_ne hrow]
    simp

variable {Q : Ty → Prop}

/-- What a row's keys stand for, before it is built. -/
theorem exists_joined {s : Ty → Ty} :
    (∃ j ∈ (joined f (keys.map s) ps).keys, Q j) ↔
      (∃ a ∈ keys, Q (s a)) ∨ ∃ p ∈ ps, ∃ v, f p = some v ∧ Q v := by
  constructor
  · rintro ⟨j, hj, hq⟩
    obtain hj | ⟨p, hp, hv⟩ := mem_joined_keys.mp hj
    · obtain ⟨a, ha, rfl⟩ := mem_map.mp hj
      exact .inl ⟨a, ha, hq⟩
    · exact .inr ⟨p, hp, j, hv, hq⟩
  · rintro (⟨a, ha, hq⟩ | ⟨p, hp, v, hv, hq⟩)
    · exact ⟨_, mem_joined_keys.mpr (.inl (mem_map_of_mem ha)), hq⟩
    · exact ⟨v, mem_joined_keys.mpr (.inr ⟨p, hp, hv⟩), hq⟩

include hf

/-- What two substitutions give of a property `Q` that a substituted type has from the keys it stood
for, or has as `N` says from the parameters that came with it. -/
theorem exists_substRow (hr : pool.IsInternedRow r)
    (h : ∀ k ∈ r.keys, pool.subst g (pool.subst f k) = pool.subst (thenSubst pool f g) k)
    {N M : ParamRef → Prop} (hQ : ∀ u, pool.IsInterned u → (Q (pool.subst g u) ↔
      (∃ j ∈ keysOf u, Q (pool.subst g j)) ∨ ∃ p ∈ paramsOf u, N p))
    (hM : ∀ p, (∃ u, f p = some u ∧ Q (pool.subst g u)) ∨ (f p = none ∧ N p) ↔ M p) :
    ((∃ a ∈ (pool.substRow f r).keys, Q (pool.subst g a)) ∨
        ∃ p ∈ (pool.substRow f r).params, N p) ↔
      (∃ a ∈ r.keys, Q (pool.subst (thenSubst pool f g) a)) ∨ ∃ p ∈ r.params, M p := by
  have hjoined : ∀ j ∈ (joined f (r.keys.map (pool.subst f)) r.params).keys, pool.IsInterned j :=
    fun j hj => by
      obtain hj | ⟨p, -, hp⟩ := mem_joined_keys.mp hj
      · obtain ⟨k, hk, rfl⟩ := mem_map.mp hj
        exact interned_subst hf (hr.keys k hk)
      · exact hf p j hp
  rw [substRow_eq hr]
  calc
    _ ↔ (∃ j ∈ (joined f (r.keys.map (pool.subst f)) r.params).keys, Q (pool.subst g j)) ∨
        ∃ p ∈ (joined f (r.keys.map (pool.subst f)) r.params).params, N p := by
      simp only [mem_row_keys, mem_row_params]
      constructor
      · rintro (⟨a, ⟨j, hj, ha⟩, hq⟩ | ⟨p, hp | ⟨j, hj, hp⟩, hn⟩)
        · exact .inl ⟨j, hj, (hQ j (hjoined j hj)).mpr (.inl ⟨a, ha, hq⟩)⟩
        · exact .inr ⟨p, hp, hn⟩
        · exact .inl ⟨j, hj, (hQ j (hjoined j hj)).mpr (.inr ⟨p, hp, hn⟩)⟩
      · rintro (⟨j, hj, hq⟩ | ⟨p, hp, hn⟩)
        · obtain ⟨a, ha, hq⟩ | ⟨p, hp, hn⟩ := (hQ j (hjoined j hj)).mp hq
          · exact .inl ⟨a, ⟨j, hj, ha⟩, hq⟩
          · exact .inr ⟨p, .inr ⟨j, hj, hp⟩, hn⟩
        · exact .inr ⟨p, .inl hp, hn⟩
    _ ↔ ((∃ a ∈ r.keys, Q (pool.subst g (pool.subst f a))) ∨
          ∃ p ∈ r.params, ∃ u, f p = some u ∧ Q (pool.subst g u)) ∨
        ∃ p, (p ∈ r.params ∧ f p = none) ∧ N p := by
      rw [exists_joined]
      simp only [mem_joined_params]
    _ ↔ _ := by
      constructor
      · rintro ((⟨a, ha, hq⟩ | ⟨p, hp, hu⟩) | ⟨p, ⟨hp, hnone⟩, hn⟩)
        · exact .inl ⟨a, ha, h a ha ▸ hq⟩
        · exact .inr ⟨p, hp, (hM p).mp (.inl hu)⟩
        · exact .inr ⟨p, hp, (hM p).mp (.inr ⟨hnone, hn⟩)⟩
      · rintro (⟨a, ha, hq⟩ | ⟨p, hp, hm⟩)
        · exact .inl (.inl ⟨a, ha, (h a ha).symm ▸ hq⟩)
        · obtain hu | ⟨hnone, hn⟩ := (hM p).mpr hm
          · exact .inl (.inr ⟨p, hp, hu⟩)
          · exact .inr ⟨p, ⟨hp, hnone⟩, hn⟩

/-- **Rows**: flattening what the first map gives and substituting in it joins the same keys and the
same parameters as flattening what it gives, substituted. -/
theorem substRow_substRow (hr : pool.IsInternedRow r)
    (h : ∀ k ∈ r.keys, pool.subst g (pool.subst f k) = pool.subst (thenSubst pool f g) k) :
    pool.substRow g (pool.substRow f r) = pool.substRow (thenSubst pool f g) r := by
  have hr' := interned_substRow hf hr fun k hk => interned_subst hf (hr.keys k hk)
  rw [substRow_eq hr', substRow_eq (f := thenSubst pool f g) hr]
  refine row_congr (fun k => ?_) fun q => ?_
  · rw [mem_flatMap, mem_flatMap, exists_joined, exists_joined]
    refine exists_substRow hf hr h (Q := fun u => k ∈ keysOf u)
      (N := fun p => ∃ v, g p = some v ∧ k ∈ keysOf v) (fun u hu => mem_keysOf_subst hu) fun p => ?_
    unfold thenSubst
    cases f p <;> simp
  · rw [mem_flatMap, mem_flatMap, exists_joined, exists_joined, mem_joined_params,
      mem_joined_params]
    have hreorder : ∀ {A : Prop} {ps : List ParamRef} {e : ParamRef → Option Ty},
        ((q ∈ ps ∧ e q = none) ∨ A ∨ ∃ p ∈ ps, ∃ v, e p = some v ∧ q ∈ paramsOf v) ↔
          A ∨ ∃ p ∈ ps, p = q ∧ e p = none ∨ ∃ v, e p = some v ∧ q ∈ paramsOf v := by
      intro A ps e
      constructor
      · rintro (⟨hq, he⟩ | ha | ⟨p, hp, hv⟩)
        · exact .inr ⟨q, hq, .inl ⟨rfl, he⟩⟩
        · exact .inl ha
        · exact .inr ⟨p, hp, .inr hv⟩
      · rintro (ha | ⟨p, hp, ⟨rfl, he⟩ | hv⟩)
        · exact .inr (.inl ha)
        · exact .inl ⟨hp, he⟩
        · exact .inr (.inr ⟨p, hp, hv⟩)
    rw [hreorder, hreorder]
    refine exists_substRow hf hr h (Q := fun u => q ∈ paramsOf u)
      (N := fun p => p = q ∧ g p = none ∨ ∃ v, g p = some v ∧ q ∈ paramsOf v)
      (fun u hu => mem_paramsOf_subst hu) fun p => ?_
    unfold thenSubst
    cases f p <;> simp

/-- **Substituting twice**, for any interned type. -/
theorem subst_subst (ht : pool.IsInterned t) :
    pool.subst g (pool.subst f t) = pool.subst (thenSubst pool f g) t := by
  induction t using induct with
  | h t ih =>
    by_cases hparam : ∃ p, t = .param p
    · obtain ⟨p, rfl⟩ := hparam
      rw [subst, subst, thenSubst]
      cases f p with
      | none => exact subst.eq_1 ..
      | some u => rfl
    · rw [not_exists] at hparam
      have hparts := interned_mapParts hf ht fun c hc => interned_subst hf (ht.child hc)
      have hne : ∀ p, t.mapParts (pool.subst f) (pool.substRow f) ≠ .param p := by
        intro p hp
        cases t with
        | param q => exact hparam q rfl
        | _ => cases hp
      rw [subst_eq ht hparam, subst_internTy hparts.1 hparts.2 hne, subst_eq ht hparam,
        mapParts_mapParts]
      refine congrArg internTy (mapParts_congr (fun c hc => ih c hc (ht.child hc)) fun r hr => ?_)
      exact substRow_substRow hf (ht.row hr) fun k hk =>
        ih k (mem_children_of_rows hr hk) (ht.child (mem_children_of_rows hr hk))

end Interned

/-- The types of a pool. -/
def Interned (pool : Pool) : Type := { t : Ty // pool.IsInterned t }

/-- The rows of a pool. -/
def InternedRow (pool : Pool) : Type := { r : RowData Ty // pool.IsInternedRow r }

theorem interned_of_map {f : ParamRef → Option pool.Interned} (p : ParamRef) (u : Ty)
    (h : (f p).map Subtype.val = some u) : pool.IsInterned u := by
  obtain ⟨v, -, rfl⟩ := Option.map_eq_some_iff.mp h
  exact v.2

/-- `Types::subst`, on the types of a pool. -/
def Interned.subst (f : ParamRef → Option pool.Interned) (t : pool.Interned) : pool.Interned :=
  ⟨pool.subst (fun p => (f p).map Subtype.val) t.1, interned_subst interned_of_map t.2⟩

/-- `Types::subst_row`, on the rows of a pool. -/
def InternedRow.subst (f : ParamRef → Option pool.Interned) (r : pool.InternedRow) :
    pool.InternedRow :=
  ⟨pool.substRow (fun p => (f p).map Subtype.val) r.1,
    interned_substRow interned_of_map r.2 fun k hk =>
      interned_subst interned_of_map (r.2.keys k hk)⟩

theorem thenSubst_map (f g : ParamRef → Option pool.Interned) :
    pool.thenSubst (fun p => (f p).map Subtype.val) (fun p => (g p).map Subtype.val) = fun p =>
      (match f p with
        | some u => some (u.subst g)
        | none => g p).map Subtype.val := by
  ext1 p
  unfold thenSubst
  dsimp only
  cases f p <;> rfl

/-- **Substitution composes**, on every type and row of a pool, and leaves a type without parameters
as it is. -/
theorem subst_composes (pool : Pool) (f g : ParamRef → Option pool.Interned) :
    (∀ t : pool.Interned, (t.subst f).subst g = t.subst fun p =>
        match f p with
        | some u => some (u.subst g)
        | none => g p) ∧
      (∀ r : pool.InternedRow, (r.subst f).subst g = r.subst fun p =>
        match f p with
        | some u => some (u.subst g)
        | none => g p) ∧
      ∀ t : pool.Interned, t.1.hasParam = false → t.subst f = t := by
  refine ⟨fun t => Subtype.ext ?_, fun r => Subtype.ext ?_, fun t h => Subtype.ext ?_⟩
  · refine (subst_subst interned_of_map t.2).trans ?_
    rw [thenSubst_map]
    rfl
  · refine (substRow_substRow interned_of_map r.2 fun k hk =>
      subst_subst interned_of_map (r.2.keys k hk)).trans ?_
    rw [thenSubst_map]
    rfl
  · exact subst_of_not_hasParam pool _ h

-- a tuple for the inputs of a function type gives its one-parameter-per-element form
example : Pool.numbered.subst (fun _ => some (.tuple [.prim .i32, .never] none))
    (.fn [.param ⟨0, 0⟩] .never ⟨[], []⟩ false .tuple none) =
      .fn [.prim .i32, .never] .never ⟨[], []⟩ false .fixed none := by
  decide

end Pool
end HdLang.Types
