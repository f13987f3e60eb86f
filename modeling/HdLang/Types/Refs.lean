import HdLang.Lib.Memo
import HdLang.Types.Subst

/-!
# Carriers of references

Before code is generated each reference type is lowered to a data type, a carrier of its referent,
and trait selection afterwards raises the carriers again. A carrier's argument is the referent, or
the referent with a permission marker. A type without dependency maps that names no carrier, and in
which no reference is to a permission marker, is what raising gives back (`raiseRefs_lowerRefs`).
-/

namespace HdLang.Types

open List Ty

/-- `RefCells`: the data types that references lower to. -/
structure RefCells where
  local_ : DefId
  counted : DefId
  deriving DecidableEq, Repr

def RefCells.holds (cell : RefCells) (d : DefId) : Bool := d == cell.local_ || d == cell.counted

/-- Whether lowering loses nothing of what a type itself is: it is no carrier, has no dependency map
and is no reference to a permission marker. -/
def RefCells.ownRaisable (cell : RefCells) : Ty → Bool
  | .adt d _ => !cell.holds d
  | .fn _ _ _ _ _ deps => deps.isNone
  | .ref (.mut_ _) _ _ => false
  | _ => true

/-- Whether lowering loses nothing of a type. -/
def RefCells.Raisable (cell : RefCells) (t : Ty) : Prop := ∀ u ∈ t.parts, cell.ownRaisable u = true

instance (cell : RefCells) : DecidablePred cell.Raisable := fun t =>
  inferInstanceAs (Decidable (∀ u ∈ t.parts, cell.ownRaisable u = true))

namespace Ty

/-- Whether a type itself is or borrows through a reference. -/
def ownRef : Ty → Bool
  | .ref .. => true
  | .opaque_ _ _ borrows _ _ => borrows
  | _ => false

def hasRef (t : Ty) : Bool := t.parts.any ownRef

theorem hasRef_eq (t : Ty) : t.hasRef = (t.ownRef || t.children.any hasRef) := by
  have hany : (fun c : Ty => c.parts.any ownRef) = hasRef := rfl
  rw [hasRef, parts_eq, any_cons, any_flatMap, hany]

/-- A function type without its dependency map. -/
def eraseDeps : Ty → Ty
  | .fn params result r suspends inputs _ => .fn params result r suspends inputs none
  | t => t

end Ty

/-- Whether a row mentions a reference. -/
def RowData.hasRef (r : RowData Ty) : Bool := r.keys.any Ty.hasRef

namespace Pool

variable (pool : Pool) (cell : RefCells)

/-! ### `lower_refs` -/

/-- `Types::lower_refs_row`, given the row's keys lowered. -/
def lowerRefsRowWith (keys : List Ty) (r : RowData Ty) : RowData Ty :=
  if r.hasRef then pool.row ⟨keys, r.params⟩ else r

/-- What `lower_refs` gives for `t`, of whose parts `t'` is made. -/
def lowered (t t' : Ty) : Ty := if t.hasRef then internTy t' else t

mutual

def lowerRefs : Ty → Ty
  | .ref inner mutable counted =>
    let identity := if mutable then internTy (.mut_ (lowerRefs inner)) else lowerRefs inner
    lowered (.ref inner mutable counted)
      (.adt (if counted then cell.counted else cell.local_) [identity])
  | .adt d args => lowered (.adt d args) (.adt d (lowerRefsList args))
  | .opaque_ owner site borrows args bound =>
    lowered (.opaque_ owner site borrows args bound)
      (.opaque_ owner site borrows (lowerRefsList args) (lowerRefs bound))
  | .tuple elems none => lowered (.tuple elems none) (.tuple (lowerRefsList elems) none)
  | .tuple elems (some r) =>
    lowered (.tuple elems (some r)) (.tuple (lowerRefsList elems) (some (lowerRefs r)))
  | .union members => lowered (.union members) (.union (lowerRefsList members))
  | .option i => lowered (.option i) (.option (lowerRefs i))
  | .mut_ i => lowered (.mut_ i) (.mut_ (lowerRefs i))
  | .fn params result ⟨keys, ps⟩ suspends inputs deps =>
    -- the dependency map is erased
    lowered (.fn params result ⟨keys, ps⟩ suspends inputs deps)
      (.fn (lowerRefsList params) (lowerRefs result)
        (lowerRefsRowWith pool (lowerRefsList keys) ⟨keys, ps⟩) suspends inputs none)
  | .row ⟨keys, ps⟩ =>
    lowered (.row ⟨keys, ps⟩) (.row (lowerRefsRowWith pool (lowerRefsList keys) ⟨keys, ps⟩))
  | .context ⟨keys, ps⟩ =>
    lowered (.context ⟨keys, ps⟩) (.context (lowerRefsRowWith pool (lowerRefsList keys) ⟨keys, ps⟩))
  | .traitValue d args bindings =>
    lowered (.traitValue d args bindings)
      (.traitValue d (lowerRefsList args) (lowerRefsBindings bindings))
  | .assoc a t selfTy args =>
    lowered (.assoc a t selfTy args) (.assoc a t (lowerRefs selfTy) (lowerRefsList args))
  | other => other
termination_by structural t => t

def lowerRefsList : List Ty → List Ty
  | [] => []
  | t :: ts => lowerRefs t :: lowerRefsList ts
termination_by structural ts => ts

def lowerRefsBindings : List (DefId × Ty) → List (DefId × Ty)
  | [] => []
  | (d, t) :: ts => (d, lowerRefs t) :: lowerRefsBindings ts
termination_by structural ts => ts

end

def lowerRefsRow (r : RowData Ty) : RowData Ty :=
  lowerRefsRowWith pool (r.keys.map (pool.lowerRefs cell)) r

/-! ### `raise_refs` -/

mutual

def raiseRefsIn : Ty → Memo.Walk Ty Ty Ty
  | .adt d args =>
    Memo.remember (.adt d args) <|
      if cell.holds d then
        match args with
        | [.mut_ inner] => do
          let inner ← raiseRefsIn inner
          pure (internTy (.ref inner true (d == cell.counted)))
        | [inner] => do
          let inner ← raiseRefsIn inner
          pure (internTy (.ref inner false (d == cell.counted)))
        | _ => pure (internTy (.adt d args))
      else do
        let args ← raiseRefsList args
        pure (internTy (.adt d args))
  | .opaque_ owner site borrows args bound =>
    Memo.remember (.opaque_ owner site borrows args bound) do
      let args ← raiseRefsList args
      let bound ← raiseRefsIn bound
      pure (internTy (.opaque_ owner site borrows args bound))
  | .tuple elems none =>
    Memo.remember (.tuple elems none) do
      let elems ← raiseRefsList elems
      pure (internTy (.tuple elems none))
  | .tuple elems (some r) =>
    Memo.remember (.tuple elems (some r)) do
      let elems ← raiseRefsList elems
      let r ← raiseRefsIn r
      pure (internTy (.tuple elems (some r)))
  | .union members =>
    Memo.remember (.union members) do
      let members ← raiseRefsList members
      pure (internTy (.union members))
  | .option i =>
    Memo.remember (.option i) do
      let i ← raiseRefsIn i
      pure (internTy (.option i))
  | .mut_ i =>
    Memo.remember (.mut_ i) do
      let i ← raiseRefsIn i
      pure (internTy (.mut_ i))
  | .assoc a t selfTy args =>
    Memo.remember (.assoc a t selfTy args) do
      let selfTy ← raiseRefsIn selfTy
      let args ← raiseRefsList args
      pure (internTy (.assoc a t selfTy args))
  | .ref inner mutable counted =>
    Memo.remember (.ref inner mutable counted) do
      let inner ← raiseRefsIn inner
      pure (internTy (.ref inner mutable counted))
  | .fn params result ⟨keys, ps⟩ suspends inputs deps =>
    Memo.remember (.fn params result ⟨keys, ps⟩ suspends inputs deps) do
      let params ← raiseRefsList params
      let result ← raiseRefsIn result
      let keys ← raiseRefsList keys
      pure (internTy (.fn params result (pool.row ⟨keys, ps⟩) suspends inputs deps))
  | .row ⟨keys, ps⟩ =>
    Memo.remember (.row ⟨keys, ps⟩) do
      let keys ← raiseRefsList keys
      pure (internTy (.row (pool.row ⟨keys, ps⟩)))
  | .context ⟨keys, ps⟩ =>
    Memo.remember (.context ⟨keys, ps⟩) do
      let keys ← raiseRefsList keys
      pure (internTy (.context (pool.row ⟨keys, ps⟩)))
  | .traitValue d args bindings =>
    Memo.remember (.traitValue d args bindings) do
      let args ← raiseRefsList args
      let bindings ← raiseRefsBindings bindings
      pure (internTy (.traitValue d args bindings))
  | other => Memo.remember other (pure other)
termination_by structural t => t

def raiseRefsList : List Ty → Memo.Walk Ty Ty (List Ty)
  | [] => pure []
  | t :: ts => do
    let t ← raiseRefsIn t
    let ts ← raiseRefsList ts
    pure (t :: ts)
termination_by structural ts => ts

def raiseRefsBindings : List (DefId × Ty) → Memo.Walk Ty Ty (List (DefId × Ty))
  | [] => pure []
  | (d, t) :: ts => do
    let t ← raiseRefsIn t
    let ts ← raiseRefsBindings ts
    pure ((d, t) :: ts)
termination_by structural ts => ts

end

def raiseRefs (t : Ty) : Ty := ((raiseRefsIn pool cell t).run []).1

/-- `Types::raise_refs_row_in`, without a memo. -/
def raiseRefsRow (r : RowData Ty) : RowData Ty :=
  pool.row ⟨r.keys.map (pool.raiseRefs cell), r.params⟩

/-- What `raise_refs` makes of the raised parts of a type. -/
def raisedNode : Ty → Ty
  | .adt d args =>
    if cell.holds d then
      match args with
      | [.mut_ inner] => .ref (pool.raiseRefs cell inner) true (d == cell.counted)
      | [inner] => .ref (pool.raiseRefs cell inner) false (d == cell.counted)
      | _ => .adt d args
    else .adt d (args.map (pool.raiseRefs cell))
  | t => t.mapParts (pool.raiseRefs cell) (pool.raiseRefsRow cell)

/-- The walk gives what raising gives, from every memo of raised types. -/
abbrev Raises (t : Ty) : Prop :=
  Memo.Computes (pool.raiseRefs cell) (pool.raiseRefsIn cell t) (pool.raiseRefs cell t)

variable {pool cell}

open Memo in
theorem raises_list {ts : List Ty} (h : ∀ t ∈ ts, pool.Raises cell t) :
    Computes (pool.raiseRefs cell) (pool.raiseRefsList cell ts) (ts.map (pool.raiseRefs cell)) := by
  induction ts with
  | nil => exact .pure
  | cons t ts ih =>
    rw [raiseRefsList, map_cons]
    refine (h t mem_cons_self).bind ((ih fun u hu => h u (mem_cons_of_mem t hu)).bind ?_)
    exact .pure

open Memo in
theorem raises_bindings {ts : List (DefId × Ty)} (h : ∀ b ∈ ts, pool.Raises cell b.2) :
    Computes (pool.raiseRefs cell) (pool.raiseRefsBindings cell ts)
      (ts.map fun b => (b.1, pool.raiseRefs cell b.2)) := by
  induction ts with
  | nil => exact .pure
  | cons b ts ih =>
    rw [raiseRefsBindings, map_cons]
    refine (h b mem_cons_self).bind ((ih fun c hc => h c (mem_cons_of_mem b hc)).bind ?_)
    exact .pure

open Memo in
/-- A type's walk gives what is made of its raised parts. -/
theorem raises_of_parts {t : Ty} (h : ∀ c ∈ t.children, ∀ u ∈ c.parts, pool.Raises cell u) :
    pool.Raises cell t ∧ pool.raiseRefs cell t = internTy (pool.raisedNode cell t) := by
  have hchild : ∀ c ∈ t.children, pool.Raises cell c := fun c hc =>
    h c hc c (mem_parts c)
  cases t with
  | adt d args =>
    rw [Raises, raiseRefsIn.eq_def]
    dsimp only
    refine Computes.remember_of ?_ (by rw [raiseRefs, raiseRefsIn.eq_def])
    rw [raisedNode.eq_def]
    dsimp only
    split
    · next hd =>
      split
      · next inner =>
        refine Computes.bind (h _ mem_cons_self inner ?_) .pure
        rw [parts]
        exact mem_cons_of_mem _ (mem_parts inner)
      · next inner _ => exact (hchild inner mem_cons_self).bind .pure
      · exact .pure
    · exact (raises_list hchild).bind .pure
  | tuple elems rest =>
    cases rest with
    | none =>
      refine Computes.remember_of ?_ rfl
      exact (raises_list fun c hc => hchild c (by simpa using hc)).bind .pure
    | some r =>
      refine Computes.remember_of ?_ rfl
      refine (raises_list fun c hc => hchild c (by simp [hc])).bind ?_
      exact (hchild r (by simp)).bind .pure
  | union members =>
    refine Computes.remember_of ?_ rfl
    exact (raises_list hchild).bind .pure
  | option i =>
    refine Computes.remember_of ?_ rfl
    exact (hchild i mem_cons_self).bind .pure
  | fn params result r suspends inputs deps =>
    refine Computes.remember_of ?_ rfl
    refine (raises_list fun c hc => hchild c (by simp [hc])).bind ?_
    refine (hchild result (by simp)).bind ?_
    exact (raises_list fun c hc => hchild c (by simp [show c ∈ r.keys from hc])).bind .pure
  | traitValue d args bindings =>
    refine Computes.remember_of ?_ rfl
    refine (raises_list fun c hc => hchild c (mem_append_left _ hc)).bind ?_
    refine (raises_bindings fun b hb => hchild b.2 ?_).bind .pure
    exact mem_append_right _ (mem_map_of_mem hb)
  | opaque_ owner site borrows args bound =>
    refine Computes.remember_of ?_ rfl
    refine (raises_list fun c hc => hchild c (mem_cons_of_mem _ hc)).bind ?_
    exact (hchild bound mem_cons_self).bind .pure
  | assoc a trait_ selfTy args =>
    refine Computes.remember_of ?_ rfl
    refine (hchild selfTy mem_cons_self).bind ?_
    exact (raises_list fun c hc => hchild c (mem_cons_of_mem _ hc)).bind .pure
  | mut_ i =>
    refine Computes.remember_of ?_ rfl
    exact (hchild i mem_cons_self).bind .pure
  | ref inner mutable counted =>
    refine Computes.remember_of ?_ rfl
    exact (hchild inner mem_cons_self).bind .pure
  | row r =>
    refine Computes.remember_of ?_ rfl
    exact (raises_list hchild).bind .pure
  | context r =>
    refine Computes.remember_of ?_ rfl
    exact (raises_list hchild).bind .pure
  | _ =>
    refine Computes.remember_of ?_ rfl
    exact .pure

theorem raises (t : Ty) : ∀ u ∈ t.parts, pool.Raises cell u := by
  induction t using induct with
  | h t ih =>
    intro u hu
    rw [parts_eq, mem_cons, mem_flatMap] at hu
    obtain rfl | ⟨c, hc, hu⟩ := hu
    · exact (raises_of_parts ih).1
    · exact ih c hc u hu

/-- **Raising**, without its memo. -/
theorem raiseRefs_eq (t : Ty) : pool.raiseRefs cell t = internTy (pool.raisedNode cell t) :=
  (raises_of_parts fun c _ => raises c).2

/-! ### Lowering -/

theorem internTy_ctorIdx (t : Ty) : (internTy t).ctorIdx = t.ctorIdx :=
  internTy_cases (P := fun t u => u.ctorIdx = t.ctorIdx) t (fun _ _ _ _ _ => rfl)
    (fun _ _ _ _ _ _ => rfl) (fun _ _ _ => rfl) fun _ => rfl

theorem lowerRefsList_eq (ts : List Ty) :
    pool.lowerRefsList cell ts = ts.map (pool.lowerRefs cell) := by
  induction ts with
  | nil => rfl
  | cons t ts ih => rw [lowerRefsList, ih, map_cons]

theorem lowerRefsBindings_eq (ts : List (DefId × Ty)) :
    pool.lowerRefsBindings cell ts = ts.map fun b => (b.1, pool.lowerRefs cell b.2) := by
  induction ts with
  | nil => rfl
  | cons p ts ih => rw [lowerRefsBindings, ih, map_cons]

theorem lowerRefs_ref (inner : Ty) (mutable counted : Bool) :
    pool.lowerRefs cell (.ref inner mutable counted) =
      .adt (if counted then cell.counted else cell.local_)
        [if mutable then .mut_ (pool.lowerRefs cell inner) else pool.lowerRefs cell inner] := by
  have href : (ref inner mutable counted).hasRef = true := by
    rw [hasRef_eq]
    rfl
  rw [lowerRefs, lowered, if_pos href]
  rfl

theorem lowerRefs_of_ne {t : Ty} (h : ∀ inner m c, t ≠ .ref inner m c) :
    pool.lowerRefs cell t =
      lowered t (t.mapParts (pool.lowerRefs cell) (pool.lowerRefsRow cell)).eraseDeps := by
  cases t with
  | ref inner m c => exact absurd rfl (h inner m c)
  | tuple elems rest =>
    cases rest <;> simp [lowerRefs, mapParts, eraseDeps, lowerRefsList_eq]
  | _ => first
    | exact (ite_self _).symm
    | simp [lowerRefs, mapParts, eraseDeps, lowerRefsList_eq, lowerRefsBindings_eq, lowerRefsRow]

theorem lowerRefs_ctorIdx {t : Ty} (h : ∀ inner m c, t ≠ .ref inner m c) :
    (pool.lowerRefs cell t).ctorIdx = t.ctorIdx := by
  rw [lowerRefs_of_ne h, lowered]
  split
  · rw [internTy_ctorIdx]
    cases t <;> rfl
  · rfl

theorem lowerRefs_of_not_hasRef {t : Ty} (h : t.hasRef = false) : pool.lowerRefs cell t = t := by
  have hne : ∀ inner m c, t ≠ .ref inner m c := by
    rintro inner m c rfl
    rw [hasRef_eq] at h
    cases h
  rw [lowerRefs_of_ne hne, lowered, h]
  rfl

theorem hasRef_false_of_child {t c : Ty} (h : t.hasRef = false) (hc : c ∈ t.children) :
    c.hasRef = false := by
  rw [hasRef_eq, Bool.or_eq_false_iff, any_eq_false] at h
  exact Bool.eq_false_iff.mpr (h.2 c hc)

theorem internTy_fn_of_ne_tuple {params : List Ty} {result : Ty} {r : RowData Ty} {suspends : Bool}
    {inputs : Inputs} {deps : FnDeps} (h : ∀ elems rest, params ≠ [.tuple elems rest]) :
    internTy (.fn params result r suspends inputs deps) =
      .fn params result r suspends inputs deps := by
  unfold internTy
  split
  · next heq =>
    injection heq with heq
    exact absurd heq (h _ _)
  · next heq =>
    injection heq with heq
    exact absurd heq (h _ _)
  · next heq => cases heq
  · rfl

/-- A type that was built is built of other parts, if none of them becomes a tuple. -/
theorem internTy_mapParts {t : Ty} {g : Ty → Ty} {gr : RowData Ty → RowData Ty}
    (ht : internTy t = t)
    (hg : ∀ c elems rest, g c = .tuple elems rest → ∃ elems' rest', c = .tuple elems' rest') :
    internTy (t.mapParts g gr) = t.mapParts g gr := by
  cases t with
  | traitValue d args bindings =>
    rw [internTy_traitValue, traitValue.injEq] at ht
    have hsort : (bindings.map fun b => (b.1, g b.2)) =
        (bindings.map fun b => (b.1, g b.2)).insertionSort bindingLe := by
      calc
        (bindings.map fun b => (b.1, g b.2))
          = (bindings.insertionSort bindingLe).map fun b => (b.1, g b.2) := by rw [ht.2.2]
        _ = (bindings.map fun b => (b.1, g b.2)).insertionSort bindingLe :=
          map_insertionSort bindingLe bindingLe _ _ fun _ _ _ _ => Iff.rfl
    rw [mapParts, internTy_traitValue, ← hsort]
  | fn params result r suspends inputs deps =>
    by_cases hinputs : inputs = .tuple
    · subst hinputs
      refine internTy_fn_of_ne_tuple fun elems rest hmap => ?_
      obtain ⟨one, rfl, hone⟩ := map_eq_singleton_iff.mp hmap
      obtain ⟨elems', rest', rfl⟩ := hg one elems rest hone
      cases rest' <;> simp [internTy] at ht
    · exact internTy_fn_of_ne hinputs
  | _ => rfl

/-! ### Main results -/

section Raisable

variable {t : Ty} {r : RowData Ty}

theorem raisable_child {c : Ty} (h : cell.Raisable t) (hc : c ∈ t.children) : cell.Raisable c := by
  intro u hu
  refine h u ?_
  rw [parts_eq]
  exact mem_cons_of_mem _ (mem_flatMap.mpr ⟨c, hc, hu⟩)

theorem raisable_own (h : cell.Raisable t) : cell.ownRaisable t = true := h t (mem_parts t)

/-- A raisable type is a tuple, a row or a permission marker when it is lowered to one. -/
theorem ctorIdx_of_lowerRefs {u : Ty} (hu : ∀ d args, u ≠ .adt d args)
    (h : pool.lowerRefs cell t = u) :
    t.ctorIdx = u.ctorIdx := by
  by_cases href : ∃ inner m c, t = .ref inner m c
  · obtain ⟨inner, m, c, rfl⟩ := href
    rw [lowerRefs_ref] at h
    exact absurd h.symm (hu _ _)
  · have hne : ∀ inner m c, t ≠ .ref inner m c := fun inner m c heq => href ⟨inner, m, c, heq⟩
    rw [← h, lowerRefs_ctorIdx hne]

theorem lowerRefs_tuple {elems : List Ty} {rest : Option Ty}
    (h : pool.lowerRefs cell t = .tuple elems rest) : ∃ elems' rest', t = .tuple elems' rest' := by
  have hidx := ctorIdx_of_lowerRefs (fun _ _ => Ty.noConfusion) h
  cases t with
  | tuple elems' rest' => exact ⟨elems', rest', rfl⟩
  | _ => exact absurd hidx nofun

theorem lowerRefs_row {s : RowData Ty} (h : pool.lowerRefs cell t = .row s) :
    ∃ s', t = .row s' := by
  have hidx := ctorIdx_of_lowerRefs (fun _ _ => Ty.noConfusion) h
  cases t with
  | row s' => exact ⟨s', rfl⟩
  | _ => exact absurd hidx nofun

theorem lowerRefs_mut {i : Ty} (h : pool.lowerRefs cell t = .mut_ i) : ∃ i', t = .mut_ i' := by
  have hidx := ctorIdx_of_lowerRefs (fun _ _ => Ty.noConfusion) h
  cases t with
  | mut_ i' => exact ⟨i', rfl⟩
  | _ => exact absurd hidx nofun

theorem lowerRefsRow_eq (h : pool.IsInternedRow r) :
    pool.lowerRefsRow cell r = pool.row ⟨r.keys.map (pool.lowerRefs cell), r.params⟩ := by
  unfold lowerRefsRow lowerRefsRowWith
  split
  · rfl
  · next hno =>
    rw [Bool.not_eq_true, RowData.hasRef, any_eq_false] at hno
    have hkeys : r.keys.map (pool.lowerRefs cell) = r.keys :=
      (map_congr_left fun k hk =>
        lowerRefs_of_not_hasRef (Bool.eq_false_iff.mpr (hno k hk))).trans (map_id' _)
    rw [hkeys]
    exact h.settled.row.symm

/-- **Lowering** a raisable type lowers its parts, unless it is a reference. -/
theorem lowerRefs_eq (ht : pool.IsInterned t) (h : cell.Raisable t)
    (hne : ∀ inner m c, t ≠ .ref inner m c) :
    pool.lowerRefs cell t = t.mapParts (pool.lowerRefs cell) (pool.lowerRefsRow cell) := by
  rw [lowerRefs_of_ne hne, lowered]
  split
  · have herase : (t.mapParts (pool.lowerRefs cell) (pool.lowerRefsRow cell)).eraseDeps =
        t.mapParts (pool.lowerRefs cell) (pool.lowerRefsRow cell) := by
      cases t with
      | fn params result r suspends inputs deps =>
        rw [Option.isNone_iff_eq_none.mp (raisable_own h)]
        rfl
      | _ => rfl
    rw [herase]
    exact internTy_mapParts (isInterned_iff.mp ht).1.intern fun c elems rest => lowerRefs_tuple
  · next hno =>
    rw [Bool.not_eq_true] at hno
    refine (mapParts_id (fun c hc => lowerRefs_of_not_hasRef (hasRef_false_of_child hno hc))
      fun r hr => ?_).symm
    have hrow : r.hasRef = false := any_eq_false.mpr fun k hk =>
      Bool.eq_false_iff.mp (hasRef_false_of_child hno (mem_children_of_rows hr hk))
    rw [lowerRefsRow, lowerRefsRowWith, hrow]
    rfl

theorem raisedNode_of_ne (h : ∀ d args, t = .adt d args → cell.holds d = false) :
    pool.raisedNode cell t = t.mapParts (pool.raiseRefs cell) (pool.raiseRefsRow cell) := by
  cases t with
  | adt d args =>
    have hd := h d args rfl
    rw [raisedNode.eq_def]
    dsimp only
    rw [hd]
    rfl
  | _ => rfl

/-- The keys of a row, raised again, are the row's keys. -/
theorem raiseRefsRow_lowerRefsRow (hr : pool.IsInternedRow r)
    (h : ∀ k ∈ r.keys, pool.raiseRefs cell (pool.lowerRefs cell k) = k) :
    pool.raiseRefsRow cell (pool.lowerRefsRow cell r) = r := by
  have hflat : ∀ k ∈ r.keys, ∀ s, pool.lowerRefs cell k ≠ .row s := by
    intro k hk s hrow
    obtain ⟨s', rfl⟩ := lowerRefs_row hrow
    exact hr.settled.flat _ hk s' rfl
  -- no lowered key stands for another, so the keys are the lowered keys
  have hkeys : ∀ j, j ∈ (pool.lowerRefsRow cell r).keys ↔
      ∃ k ∈ r.keys, pool.lowerRefs cell k = j := by
    intro j
    rw [lowerRefsRow_eq hr, mem_row_keys]
    constructor
    · rintro ⟨i, hi, hj⟩
      obtain ⟨k, hk, rfl⟩ := mem_map.mp hi
      rw [keysOf_of_ne (hflat k hk), mem_singleton] at hj
      exact ⟨k, hk, hj.symm⟩
    · rintro ⟨k, hk, rfl⟩
      refine ⟨_, mem_map_of_mem hk, ?_⟩
      rw [keysOf_of_ne (hflat k hk)]
      exact mem_singleton_self _
  have hparams : ∀ p, p ∈ (pool.lowerRefsRow cell r).params ↔ p ∈ r.params := by
    intro p
    rw [lowerRefsRow_eq hr, mem_row_params]
    refine ⟨fun hp => hp.resolve_right ?_, Or.inl⟩
    rintro ⟨i, hi, hp⟩
    obtain ⟨k, hk, rfl⟩ := mem_map.mp hi
    rw [paramsOf_of_ne (hflat k hk)] at hp
    exact absurd hp not_mem_nil
  have hraised : ∀ k,
      k ∈ (pool.lowerRefsRow cell r).keys.map (pool.raiseRefs cell) ↔ k ∈ r.keys := by
    intro k
    rw [mem_map]
    constructor
    · rintro ⟨j, hj, rfl⟩
      obtain ⟨k, hk, rfl⟩ := (hkeys j).mp hj
      rw [h k hk]
      exact hk
    · intro hk
      exact ⟨_, (hkeys _).mpr ⟨k, hk, rfl⟩, h k hk⟩
  calc
    pool.raiseRefsRow cell (pool.lowerRefsRow cell r) = pool.row r := by
      refine row_congr (fun k => ?_) fun p => ?_
      · simp only [mem_flatMap, hraised]
      · simp only [mem_flatMap, hraised, hparams]
    _ = r := hr.settled.row

/-- **Raising undoes lowering** on the raisable types of a pool. -/
theorem raiseRefs_lowerRefs (hcell : cell.local_ ≠ cell.counted) (ht : pool.IsInterned t)
    (h : cell.Raisable t) : pool.raiseRefs cell (pool.lowerRefs cell t) = t := by
  induction t using induct with
  | h t ih =>
    have hchild : ∀ c ∈ t.children, pool.raiseRefs cell (pool.lowerRefs cell c) = c := fun c hc =>
      ih c hc (ht.child hc) (raisable_child h hc)
    by_cases href : ∃ inner m c, t = .ref inner m c
    · obtain ⟨inner, mutable, counted, rfl⟩ := href
      have hinner := hchild inner mem_cons_self
      have hholds : cell.holds (if counted then cell.counted else cell.local_) = true := by
        cases counted <;> simp [RefCells.holds]
      have hkind : ((if counted then cell.counted else cell.local_) == cell.counted) = counted := by
        cases counted
        · exact beq_false_of_ne hcell
        · exact beq_self_eq_true cell.counted
      rw [lowerRefs_ref, raiseRefs_eq, raisedNode.eq_def]
      dsimp only
      rw [if_pos hholds, hkind]
      cases mutable with
      | true =>
        show internTy (.ref (pool.raiseRefs cell (pool.lowerRefs cell inner)) true counted) = _
        rw [hinner]
        rfl
      | false =>
        -- the carrier's argument is no permission marker, as the referent is none
        have hmut : ∀ i, pool.lowerRefs cell inner ≠ .mut_ i := by
          intro i hi
          obtain ⟨i', rfl⟩ := lowerRefs_mut hi
          exact absurd (raisable_own h) Bool.false_ne_true
        rw [if_neg Bool.false_ne_true]
        split
        · next i heq => exact absurd (singleton_inj.mp heq) (hmut i)
        · next i _ heq =>
          rw [← singleton_inj.mp heq, hinner]
          rfl
        · next _ hone => exact absurd rfl (hone _)
    · have hne : ∀ inner m c, t ≠ .ref inner m c := fun inner m c heq => href ⟨inner, m, c, heq⟩
      have hcarrier : ∀ d args,
          t.mapParts (pool.lowerRefs cell) (pool.lowerRefsRow cell) = .adt d args →
            cell.holds d = false := by
        intro d args heq
        cases t with
        | adt e args' =>
          rw [mapParts, adt.injEq] at heq
          rw [← heq.1]
          exact Bool.not_eq_true' _ ▸ raisable_own h
        | _ => cases heq
      have hparts : t.mapParts (pool.raiseRefs cell ∘ pool.lowerRefs cell)
          (pool.raiseRefsRow cell ∘ pool.lowerRefsRow cell) = t :=
        mapParts_id hchild fun r hr => raiseRefsRow_lowerRefsRow (ht.row hr) fun k hk =>
          hchild k (mem_children_of_rows hr hk)
      rw [lowerRefs_eq ht h hne, raiseRefs_eq, raisedNode_of_ne hcarrier, mapParts_mapParts, hparts]
      exact (isInterned_iff.mp ht).1.intern

end Raisable

/-- **Raising undoes lowering**, so lowering keeps raisable types apart. -/
theorem raiseRefs_undoes (pool : Pool) (cell : RefCells) (hcell : cell.local_ ≠ cell.counted) :
    (∀ t : pool.Interned, cell.Raisable t.1 →
      pool.raiseRefs cell (pool.lowerRefs cell t.1) = t.1) ∧
    ∀ t u : pool.Interned, cell.Raisable t.1 → cell.Raisable u.1 →
      pool.lowerRefs cell t.1 = pool.lowerRefs cell u.1 → t = u := by
  refine ⟨fun t ht => raiseRefs_lowerRefs hcell t.2 ht, fun t u ht hu heq => Subtype.ext ?_⟩
  rw [← raiseRefs_lowerRefs hcell t.2 ht, heq, raiseRefs_lowerRefs hcell u.2 hu]

/-- A tuple of a mutable reference and a counted one. -/
theorem raiseRefs_undoes_tuple :
    Pool.numbered.raiseRefs ⟨0, 1⟩ (Pool.numbered.lowerRefs ⟨0, 1⟩
      (.tuple [.ref (.prim .i32) true false, .ref .never false true] none)) =
        .tuple [.ref (.prim .i32) true false, .ref .never false true] none := by
  have ht : Pool.numbered.IsInterned
      (.tuple [.ref (.prim .i32) true false, .ref .never false true] none) := by
    intro u hu
    simp only [Ty.parts, Ty.partsList, List.append_nil, List.mem_cons, List.cons_append,
      List.nil_append, List.not_mem_nil, or_false] at hu
    obtain rfl | rfl | rfl | rfl | rfl := hu <;> exact ⟨rfl, fun r hr => absurd hr List.not_mem_nil⟩
  have hraisable : RefCells.Raisable ⟨0, 1⟩
      (.tuple [.ref (.prim .i32) true false, .ref .never false true] none) := by decide
  exact (raiseRefs_undoes Pool.numbered ⟨0, 1⟩ (by decide)).1 ⟨_, ht⟩ hraisable

end Pool
end HdLang.Types
