import HdLang.Types.Lookup

/-!
# Owner lookup and a full scan

What owner lookup returns for a goal, of the rows whose heads match it, is what a scan of every
table of the context finds (`candidates_scan`).

A row is reached in one of the ways of `Row.reach`, and a head that matches the goal leads there: a
head covers a type that is not open only if both have the same outer constructor, so they have the
same owner and their head keys agree (`Covers.declared`, `Covers.admits`). What is read in more than
one way is one reference, sorted to one place, and the rows of one impl are the same row. So both
sides are the same strictly ascending list of references, with the first row of each impl kept.

The scan finds more where the goal is not one that the solver looks up: a self type that is a
variable or poison has no owner (`not_candidates_scan`), and two `mut` markers hide one.
-/

namespace HdLang.Types

open List HeadKey FolderImpls UniverseImpls SortedSet

/-! ### Heads and goals -/

/-- A type without its `mut` markers. -/
def Ty.core : Ty → Ty
  | .mut_ i => core i
  | t => t
termination_by structural t => t

/-- The declared constructor of a type: a data type, or a trait value's trait. -/
def Ty.declared : Ty → Option DefId
  | .adt d _ => some d
  | .traitValue d _ _ => some d
  | _ => none

/-- A variable or poison. -/
def Ty.isOpen : Ty → Bool
  | .infer _ | .poison => true
  | _ => false

theorem HeadKey.of_core (t : Ty) : HeadKey.of t = HeadKey.of t.core := by
  match t with
  | .mut_ i =>
    rw [of, Ty.core]
    exact of_core i
  | .prim _ | .never | .poison | .adt .. | .tuple .. | .union _ | .option _ | .fn .. |
    .traitValue .. | .opaque_ .. | .param _ | .const_ _ | .assoc .. | .ref .. | .infer _ |
    .canon _ |
    .row _ | .context _ => rfl

namespace Covers

variable {owner : DefId} {pat t : Ty}

/-- A head with a declared constructor covers the types with the same one. -/
theorem declared (h : Covers owner pat t) {d : DefId} (hd : pat.core.declared = some d) :
    t.core.declared = some d ∨ t.core.isOpen = true := by
  induction h with
  | same => exact .inl hd
  | poison => exact .inr rfl
  | infer => exact .inr rfl
  | markedHead _ ih => exact ih hd
  | marked _ ih => exact ih hd
  | adt => exact .inl hd
  | traitValue => exact .inl hd
  | _ => cases hd

/-- A head's key is one that a probe with the type's key is after. -/
theorem admits (h : Covers owner pat t) {k key : HeadKey} (hk : HeadKey.of pat = .ok k)
    (hkey : HeadKey.of t = .ok key) : key.Admits k := by
  have hany : of t = .ok .any → key.Admits k := fun hopen =>
    .inl (Except.ok.inj (hkey.symm.trans hopen))
  have heq : of pat = of t → key.Admits k := fun hsame =>
    .inr (.inl (Except.ok.inj (hk.symm.trans (hsame.trans hkey))))
  induction h with
  | param => exact .inr (.inr (.inl (Except.ok.inj hk).symm))
  | same => exact heq rfl
  | poison => exact hany rfl
  | infer => exact hany rfl
  | markedHead _ ih => exact ih hk hkey hany heq
  | marked _ ih => exact ih hk hkey hany heq
  | tuple hlen => exact heq (by rw [of, of, hlen])
  | fn => rename_i s _ _ _; cases s <;> exact heq rfl
  | ref => exact hany rfl
  | option => exact hany rfl
  | row => exact hany rfl
  | _ => exact heq rfl

end Covers

/-- The fold over the arguments of a goal and a head: a bare variable learns the head's. -/
def matchArgs (owner : DefId) : List Ty → List Ty → M → Binds → M
  | h :: hs, g :: gs, acc, binds =>
    if g.isInfer then matchArgs owner hs gs acc binds
    else
      let (m, binds) := matchTy owner h g binds
      matchArgs owner hs gs (both acc m) binds
  | _, _, acc, _ => acc

/-- A row's head against a goal. -/
def Row.matchHead (row : Row) (selfTy : Ty) (args : List Ty) : M :=
  let (a, binds) := matchTy row.def_ row.headSelf selfTy []
  let b :=
    if row.headArgs.length = args.length then matchArgs row.def_ row.headArgs args .yes binds
    else .no
  both a b

/-- The shape of the values that a template is for. -/
def Row.shape (row : Row) (selfTy : Ty) : Bool :=
  match row.origin, selfTy.core with
  | .tupleTemplate, .tuple .. => true
  | .tupleTemplate, _ => false
  | .unionTemplate, .union _ => true
  | .unionTemplate, _ => false
  | _, _ => true

/-- A row may answer a goal: its head matches, and a template's shape is the self type's. -/
def Row.fits (row : Row) (selfTy : Ty) (args : List Ty) : Bool :=
  row.shape selfTy && row.matchHead selfTy args != .no

theorem both_ne_no {a b : M} (h : both a b ≠ .no) : a ≠ .no ∧ b ≠ .no := by
  cases a <;> cases b <;> first | exact absurd rfl h | exact ⟨by decide, by decide⟩

theorem covers_of_matchArgs {owner : DefId} {hs gs : List Ty} {acc : M} {binds : Binds}
    (hlen : hs.length = gs.length) (h : matchArgs owner hs gs acc binds ≠ .no) :
    acc ≠ .no ∧ ∀ p ∈ hs, ∃ g ∈ gs, g.isInfer = true ∨ Covers owner p g := by
  induction hs generalizing gs acc binds with
  | nil =>
    rw [matchArgs.eq_def] at h
    exact ⟨h, fun p hp => absurd hp not_mem_nil⟩
  | cons p hs ih =>
    cases gs with
    | nil => cases hlen
    | cons g gs =>
      have hlen := Nat.succ.inj hlen
      have htail : (∀ p ∈ hs, ∃ g ∈ gs, g.isInfer = true ∨ Covers owner p g) →
          (g.isInfer = true ∨ Covers owner p g) →
          ∀ q ∈ p :: hs, ∃ g' ∈ g :: gs, g'.isInfer = true ∨ Covers owner q g' := by
        intro hall hg q hq
        obtain rfl | hq := mem_cons.mp hq
        · exact ⟨g, mem_cons_self, hg⟩
        · obtain ⟨g', hg', hcov⟩ := hall q hq
          exact ⟨g', mem_cons_of_mem g hg', hcov⟩
      rw [matchArgs] at h
      split at h
      · next hg =>
        obtain ⟨hacc, hall⟩ := ih hlen h
        exact ⟨hacc, htail hall (.inl hg)⟩
      · obtain ⟨hacc, hall⟩ := ih hlen h
        obtain ⟨hacc, hm⟩ := both_ne_no hacc
        exact ⟨hacc, htail hall (.inr (covers_of_matchTy owner p g binds hm))⟩

namespace Row

variable {row : Row} {selfTy : Ty} {args : List Ty}

theorem tuple_of_shape (horigin : row.origin = .tupleTemplate) (h : row.shape selfTy = true) :
    ∃ elems rest, selfTy.core = .tuple elems rest := by
  unfold shape at h
  rw [horigin] at h
  cases hcore : selfTy.core with
  | tuple elems rest => exact ⟨elems, rest, rfl⟩
  | _ =>
    rw [hcore] at h
    cases h

theorem union_of_shape (horigin : row.origin = .unionTemplate) (h : row.shape selfTy = true) :
    ∃ members, selfTy.core = .union members := by
  unfold shape at h
  rw [horigin] at h
  cases hcore : selfTy.core with
  | union members => exact ⟨members, rfl⟩
  | _ =>
    rw [hcore] at h
    cases h

theorem covers_of_fits (h : row.fits selfTy args = true) :
    row.shape selfTy = true ∧ Covers row.def_ row.headSelf selfTy ∧
      ∀ p ∈ row.headArgs, ∃ g ∈ args, g.isInfer = true ∨ Covers row.def_ p g := by
  rw [fits, Bool.and_eq_true, bne_iff_ne] at h
  obtain ⟨hshape, hmatch⟩ := h
  obtain ⟨ha, hb⟩ := both_ne_no hmatch
  refine ⟨hshape, covers_of_matchTy _ _ _ _ ha, ?_⟩
  split at hb
  · next hlen => exact (covers_of_matchArgs hlen hb).2
  · exact absurd rfl hb

/-- **The key of a row that fits** is one that the goal's probe is after. -/
theorem admits_of_fits (hkeyed : row.Keyed) (h : row.fits selfTy args = true) {key : HeadKey}
    (hkey : HeadKey.of selfTy = .ok key) : key.Admits row.headKey := by
  obtain ⟨hshape, hcov, -⟩ := covers_of_fits h
  unfold Keyed at hkeyed
  split at hkeyed
  · next horigin =>
    obtain ⟨elems, rest, heq⟩ := tuple_of_shape horigin hshape
    rw [of_core, heq] at hkey
    rw [hkeyed]
    cases rest with
    | none =>
      rw [of] at hkey
      split at hkey
      · obtain rfl := Except.ok.inj hkey
        exact .inr (.inr (.inr ⟨rfl, rfl⟩))
      · cases hkey
    | some r => exact .inr (.inl (Except.ok.inj hkey))
  · next horigin =>
    obtain ⟨members, heq⟩ := union_of_shape horigin hshape
    rw [of_core, heq] at hkey
    rw [hkeyed]
    exact .inr (.inl (Except.ok.inj hkey))
  · exact hcov.admits hkeyed hkey

end Row

/-! ### The owner of a row that fits -/

/-- One `mut` marker at most. -/
def Ty.Marked (t : Ty) : Prop := stripMut t = t.core

theorem core_stripMut (t : Ty) : (stripMut t).core = t.core := by
  cases t <;> rfl

/-- What a type is declared as, under one marker, is what it is declared as. -/
theorem declared_of_stripMut {t : Ty} {d : DefId} (h : (stripMut t).declared = some d) :
    t.core.declared = some d := by
  rw [← core_stripMut]
  cases hs : stripMut t with
  | mut_ i =>
    rw [hs] at h
    cases h
  | _ =>
    rw [hs] at h
    exact h

theorem OwnerMap.ownerOfTy_eq (owners : OwnerMap) (paths : Paths) (t : Ty) :
    owners.ownerOfTy paths t = (stripMut t).declared.bind (owners.owner paths) := by
  unfold OwnerMap.ownerOfTy
  cases stripMut t <;> rfl

/-- A type that a head with an owner covers has that owner, or is open. -/
theorem Covers.ownerOfTy {owner : DefId} {pat t : Ty} {owners : OwnerMap} {paths : Paths}
    {f : FolderId} (h : Covers owner pat t) (ht : t.Marked)
    (hpat : owners.ownerOfTy paths pat = some f) :
    owners.ownerOfTy paths t = some f ∨ (stripMut t).isOpen = true := by
  rw [owners.ownerOfTy_eq] at hpat
  obtain ⟨d, hd, hf⟩ := Option.bind_eq_some_iff.mp hpat
  rw [ht]
  refine (h.declared (declared_of_stripMut hd)).imp_left fun hdecl => ?_
  rw [owners.ownerOfTy_eq, ht, hdecl]
  exact hf

theorem openArg_of_isOpen {t : Ty} (h : (stripMut t).isOpen = true) : openArg t = true := by
  unfold openArg
  cases hs : stripMut t <;> first | rfl | (rw [hs] at h; cases h)

theorem openArg_of_isInfer {t : Ty} (h : t.isInfer = true) : openArg t = true := by
  cases t <;> first | rfl | cases h

/-! ### The scan -/

namespace ImplView

/-- The tables of a context: the own one, then the closure's in folder order. -/
def tables (v : ImplView) : List (TableId × ImplTable) :=
  v.own.toList.map (fun t => (.own, t)) ++
    v.folders.zipIdx.filterMap fun (fi?, f) => fi?.map fun fi => (.folder f, fi.table)

/-- Every row of every table. -/
def scan (v : ImplView) : List (ImplRef × ImplTable) :=
  v.tables.flatMap fun (m, t) => (List.range t.rows.length).map fun r => (⟨m, r⟩, t)

/-- A row is not of an impl that the context does not see. -/
def visible (v : ImplView) (x : ImplRef × ImplTable) : Bool :=
  (implOf x).all fun d => d ∉ v.hidden

/-- A context's view as the driver builds it. -/
structure Built (v : ImplView) : Prop where
  indexed : ∀ {m t}, v.table m = some t → t.Indexed
  keyed : ∀ {m t}, v.table m = some t → ∀ row ∈ t.rows, row.Keyed
  folders : ∀ {f fi}, v.folder f = some fi → fi = FolderImpls.new v.owners v.paths f fi.table
  extra : v.extra = UniverseImpls.new (members v.folders)
  /-- The rows of the own table are rows of a folder. -/
  own : ∀ {t}, v.own = some t → ∀ row ∈ t.rows, ∃ f fi, v.folder f = some fi ∧ row ∈ fi.table.rows
  /-- An impl has one head. -/
  heads : ∀ {f fi f' fi'}, v.folder f = some fi → v.folder f' = some fi' →
    ∀ row ∈ fi.table.rows, ∀ row' ∈ fi'.table.rows, row.def_ = row'.def_ → row = row'

end ImplView

/-- The row of a reference that was looked up. -/
def rowOf (x : ImplRef × ImplTable) : Option Row := x.2.rows[x.1.row]?

/-- A row that was looked up fits the goal. -/
def fitsGoal (selfTy : Ty) (args : List Ty) (x : ImplRef × ImplTable) : Bool :=
  (rowOf x).any fun row => row.fits selfTy args

/-- A row answers the goal: it is of the trait, and fits. -/
def answers (trait_ : DefId) (selfTy : Ty) (args : List Ty) (x : ImplRef × ImplTable) : Bool :=
  (rowOf x).any fun row => row.trait_ = trait_ && row.fits selfTy args

namespace ImplView

variable {v : ImplView} {trait_ : DefId} {selfTy : Ty} {args : List Ty} {key : HeadKey}
  {m : TableId} {t : ImplTable} {f : FolderId} {fi : FolderImpls} {row : Row} {r : ℕ}
  {ref : ImplRef} {x : ImplRef × ImplTable}

theorem mem_members {folders : List (Option FolderImpls)} :
    (f, fi) ∈ members folders ↔ folders[f]?.join = some fi ∧ fi.inUniverse = true := by
  unfold members
  rw [mem_filterMap, Option.join_eq_some_iff]
  constructor
  · rintro ⟨⟨fi?, f'⟩, hmem, hpick⟩
    obtain ⟨fi', hfi, hif⟩ := Option.bind_eq_some_iff.mp hpick
    subst hfi
    split at hif
    · next huni =>
      cases hif
      exact ⟨mem_zipIdx_iff_getElem?.mp hmem, huni⟩
    · cases hif
  · rintro ⟨hget, huni⟩
    refine ⟨(some fi, f), mem_zipIdx_iff_getElem?.mpr hget, ?_⟩
    dsimp only
    rw [Option.bind_some, if_pos huni]

theorem mem_tables : (m, t) ∈ v.tables ↔ v.table m = some t := by
  unfold tables
  rw [mem_append, mem_map, mem_filterMap]
  cases m with
  | own =>
    constructor
    · rintro (⟨t', ht, heq⟩ | ⟨⟨fi?, f⟩, _, hpick⟩)
      · cases heq
        exact Option.mem_toList.mp ht
      · obtain ⟨fi, _, heq⟩ := Option.map_eq_some_iff.mp hpick
        cases heq
    · exact fun h => .inl ⟨t, Option.mem_toList.mpr h, rfl⟩
  | folder f =>
    rw [table, folder, Option.map_eq_some_iff]
    constructor
    · rintro (⟨t', _, heq⟩ | ⟨⟨fi?, f'⟩, hmem, hpick⟩)
      · cases heq
      · obtain ⟨fi, hfi, heq⟩ := Option.map_eq_some_iff.mp hpick
        cases heq
        subst hfi
        exact ⟨fi, Option.join_eq_some_iff.mpr (mem_zipIdx_iff_getElem?.mp hmem), rfl⟩
    · rintro ⟨fi, hfi, rfl⟩
      refine .inr ⟨(some fi, f), ?_, rfl⟩
      exact mem_zipIdx_iff_getElem?.mpr (Option.join_eq_some_iff.mp hfi)

theorem mem_scan : x ∈ v.scan ↔ v.table x.1.table = some x.2 ∧ x.1.row < x.2.rows.length := by
  unfold scan
  rw [mem_flatMap]
  constructor
  · rintro ⟨⟨m, t⟩, hm, hx⟩
    obtain ⟨r, hr, rfl⟩ := mem_map.mp hx
    exact ⟨mem_tables.mp hm, List.mem_range.mp hr⟩
  · rintro ⟨htable, hrow⟩
    exact ⟨(x.1.table, x.2), mem_tables.mpr htable,
      mem_map.mpr ⟨x.1.row, List.mem_range.mpr hrow, rfl⟩⟩

/-! ### Order -/

/-- The candidate order, strictly. -/
def before (x y : ImplRef × ImplTable) : Prop :=
  toLex (x.1.table.position, x.1.row) < toLex (y.1.table.position, y.1.row)

theorem position_injective : Function.Injective TableId.position := by
  intro m m' h
  cases m <;> cases m' <;> simp_all [TableId.position]

theorem pairwise_tables : v.tables.Pairwise fun a b => a.1.position < b.1.position := by
  unfold tables
  refine pairwise_append.mpr ⟨?_, ?_, ?_⟩
  · cases v.own <;> simp
  · have hidx : v.folders.zipIdx.Pairwise fun a b => a.2 < b.2 := by
      refine pairwise_iff_getElem.mpr fun i j hi hj hij => ?_
      simpa using hij
    refine pairwise_filterMap.mpr (hidx.imp ?_)
    rintro ⟨fi?, f⟩ ⟨fi?', f'⟩ hlt a ha b hb
    obtain ⟨fi, _, rfl⟩ := Option.map_eq_some_iff.mp ha
    obtain ⟨fi', _, rfl⟩ := Option.map_eq_some_iff.mp hb
    exact Nat.succ_lt_succ hlt
  · rintro ⟨m, t⟩ hm ⟨m', t'⟩ hm'
    obtain ⟨t, _, heq⟩ := mem_map.mp hm
    obtain ⟨⟨fi?, f⟩, _, hpick⟩ := mem_filterMap.mp hm'
    obtain ⟨fi, _, heq'⟩ := Option.map_eq_some_iff.mp hpick
    cases heq
    cases heq'
    exact Nat.succ_pos f

theorem pairwise_scan : v.scan.Pairwise before := by
  unfold scan
  refine pairwise_flatMap.mpr ⟨?_, ?_⟩
  · rintro ⟨m, t⟩ _
    refine pairwise_map.mpr (pairwise_lt_range.imp fun hlt => ?_)
    exact Prod.Lex.toLex_lt_toLex.mpr (.inr ⟨rfl, hlt⟩)
  · refine pairwise_tables.imp ?_
    rintro ⟨m, t⟩ ⟨m', t'⟩ hlt x hx y hy
    obtain ⟨r, _, rfl⟩ := mem_map.mp hx
    obtain ⟨r', _, rfl⟩ := mem_map.mp hy
    exact Prod.Lex.toLex_lt_toLex.mpr (.inl hlt)

instance : Std.Total ImplRef.le := ⟨fun r _ => le_total (toLex (r.table.position, r.row)) _⟩

instance : IsTrans ImplRef ImplRef.le := ⟨fun _ _ _ => le_trans⟩

instance : Std.Antisymm ImplRef.le := by
  constructor
  intro r r' h h'
  have heq := congrArg ofLex (le_antisymm h h')
  rw [ofLex_toLex, ofLex_toLex, Prod.mk.injEq] at heq
  exact ImplRef.ext (position_injective heq.1) heq.2

/-- The rows that the sorted references point at. -/
def looked (v : ImplView) (refs : List ImplRef) : List (ImplRef × ImplTable) :=
  (SortedSet.ofList ImplRef.le refs).filterMap fun r => (v.table r.table).map fun t => (r, t)

theorem pick_eq (refs : List ImplRef) :
    v.pick refs = (oneRowPerImpl (v.looked refs)).filter v.visible := rfl

theorem mem_looked {refs : List ImplRef} :
    x ∈ v.looked refs ↔ x.1 ∈ refs ∧ v.table x.1.table = some x.2 := by
  unfold looked
  rw [mem_filterMap]
  constructor
  · rintro ⟨r, hr, hpick⟩
    obtain ⟨t, ht, rfl⟩ := Option.map_eq_some_iff.mp hpick
    exact ⟨(mem_ofList ImplRef.le).mp hr, ht⟩
  · rintro ⟨hr, ht⟩
    refine ⟨x.1, (mem_ofList ImplRef.le).mpr hr, ?_⟩
    rw [ht, Option.map_some]

theorem pairwise_looked (refs : List ImplRef) : (v.looked refs).Pairwise before := by
  refine pairwise_filterMap.mpr ?_
  have hboth := (pairwise_ofList ImplRef.le refs).and (nodup_ofList ImplRef.le (l := refs))
  refine hboth.imp ?_
  rintro r r' ⟨hle, hne⟩ x hx y hy
  obtain ⟨t, _, rfl⟩ := Option.map_eq_some_iff.mp hx
  obtain ⟨t', _, rfl⟩ := Option.map_eq_some_iff.mp hy
  refine lt_of_le_of_ne hle fun heq => hne ?_
  exact Std.Antisymm.antisymm r r' hle heq.ge

/-- Two lists in candidate order with the same members are the same. -/
theorem eq_of_before {l l' : List (ImplRef × ImplTable)} (hl : l.Pairwise before)
    (hl' : l'.Pairwise before) (h : ∀ x, x ∈ l ↔ x ∈ l') : l = l' := by
  have hnodup : ∀ {l : List (ImplRef × ImplTable)}, l.Pairwise before → l.Nodup := fun hl =>
    hl.imp fun {a b} hlt heq => absurd (heq ▸ hlt) (lt_irrefl _)
  refine List.Perm.eq_of_pairwise (fun a b _ _ hab hba => absurd hab (lt_asymm hba)) hl hl' ?_
  exact (perm_ext_iff_of_nodup (hnodup hl) (hnodup hl')).mpr h

/-! ### What is read -/

theorem mem_refsOf (ht : t.Indexed) : ref ∈ refsOf m t trait_ key ↔
    ref.table = m ∧ ∃ row, t.rows[ref.row]? = some row ∧ row.trait_ = trait_ ∧
      key.Admits row.headKey := by
  unfold refsOf
  rw [mem_map, ht.candidates_eq]
  constructor
  · rintro ⟨r, hr, rfl⟩
    have hsees : t.Sees trait_ key r := of_decide_eq_true (mem_filter.mp hr).2
    exact ⟨rfl, hsees⟩
  · rintro ⟨rfl, hsees⟩
    have hsees : t.Sees trait_ key ref.row := hsees
    obtain ⟨row, hrow, _⟩ := id hsees
    have hlt := List.mem_range.mpr (List.getElem?_eq_some_iff.mp hrow).1
    exact ⟨ref.row, mem_filter.mpr ⟨hlt, decide_eq_true hsees⟩, rfl⟩

/-- The references that a probe collects. -/
def collected (v : ImplView) (trait_ : DefId) (key : HeadKey) (owners : List FolderId)
    (open_ : Bool) : List ImplRef :=
  v.ownedRefs trait_ key owners ++ v.extra.unowned.candidates trait_ key ++
    if open_ then v.extra.directory.candidates trait_ key else []

theorem table_folder : v.table (.folder f) = some t ↔ ∃ fi, v.folder f = some fi ∧ fi.table = t :=
  Option.map_eq_some_iff

variable {owners : List FolderId} {open_ : Bool}

theorem row_of_mem_section (sec : FolderImpls → List ℕ)
    (h : ref ∈ (RefTable.build ((members v.folders).flatMap fun (f, fi) =>
      (sec fi).filterMap (entry f fi.table))).candidates trait_ key)
    {t : ImplTable} (ht : v.table ref.table = some t) :
    ∃ row, t.rows[ref.row]? = some row ∧ row.trait_ = trait_ := by
  obtain ⟨f, fi, row, hf, htable, _, hrow, heq, _⟩ := mem_candidates.mp h
  rw [htable] at ht
  obtain ⟨fi', hfi', rfl⟩ := table_folder.mp ht
  obtain rfl := Option.some.inj ((mem_members.mp hf).1.symm.trans hfi')
  exact ⟨row, hrow, heq⟩

/-- **What is read** are rows of the goal's trait. -/
theorem row_of_mem_collected (hv : v.Built) (h : ref ∈ v.collected trait_ key owners open_)
    {t : ImplTable} (ht : v.table ref.table = some t) :
    ∃ row, t.rows[ref.row]? = some row ∧ row.trait_ = trait_ := by
  unfold collected at h
  rw [hv.extra] at h
  rcases mem_append.mp h with h | h
  · rcases mem_append.mp h with h | h
    · unfold ownedRefs at h
      rcases mem_append.mp h with h | h
      · obtain ⟨t', hown, hmem⟩ := mem_flatMap.mp h
        have hown := Option.mem_toList.mp hown
        obtain ⟨htable, row, hrow, heq, _⟩ := (mem_refsOf (hv.indexed (m := .own) hown)).mp hmem
        rw [htable] at ht
        obtain rfl := Option.some.inj (hown.symm.trans ht)
        exact ⟨row, hrow, heq⟩
      · obtain ⟨f, _, hmem⟩ := mem_flatMap.mp h
        obtain ⟨fi, hfi, hmem⟩ := mem_flatMap.mp hmem
        have hfi := Option.mem_toList.mp hfi
        have hindexed := hv.indexed (m := .folder f) (table_folder.mpr ⟨fi, hfi, rfl⟩)
        obtain ⟨htable, row, hrow, heq, _⟩ := (mem_refsOf hindexed).mp hmem
        rw [htable] at ht
        obtain ⟨fi', hfi', rfl⟩ := table_folder.mp ht
        obtain rfl := Option.some.inj (hfi.symm.trans hfi')
        exact ⟨row, hrow, heq⟩
    · exact row_of_mem_section unowned h ht
  · split at h
    · exact row_of_mem_section argImpls h ht
    · exact absurd h not_mem_nil

theorem mem_ownersOf : f ∈ v.ownersOf trait_ selfTy args ↔
    v.owners.owner v.paths trait_ = some f ∨ v.owners.ownerOfTy v.paths selfTy = some f ∨
      ∃ a ∈ args, v.owners.ownerOfTy v.paths a = some f := by
  unfold ownersOf
  rw [mem_ofList]
  simp only [mem_append, Option.mem_toList, mem_flatMap, or_assoc]

theorem mem_collected_of_owner (hv : v.Built) (hfi : v.folder f = some fi)
    (hrow : fi.table.rows[r]? = some row) (htrait : row.trait_ = trait_)
    (hkey : key.Admits row.headKey) (hf : f ∈ v.ownersOf trait_ selfTy args) :
    ⟨.folder f, r⟩ ∈ v.collected trait_ key (v.ownersOf trait_ selfTy args) open_ := by
  refine mem_append_left _ (mem_append_left _ (mem_append_right _ ?_))
  refine mem_flatMap.mpr ⟨f, hf, mem_flatMap.mpr ⟨fi, Option.mem_toList.mpr hfi, ?_⟩⟩
  have hindexed := hv.indexed (m := .folder f) (table_folder.mpr ⟨fi, hfi, rfl⟩)
  exact (mem_refsOf hindexed).mpr ⟨rfl, row, hrow, htrait, hkey⟩

/-- **A row that answers the goal is read**, in the way of `Row.reach`. -/
theorem mem_collected (hv : v.Built) (hself : selfTy.Marked)
    (hclosed : (stripMut selfTy).isOpen = false) (hargs : ∀ a ∈ args, a.Marked)
    (hkey : HeadKey.of selfTy = .ok key) (ht : v.table m = some t) (hrow : t.rows[r]? = some row)
    (htrait : row.trait_ = trait_) (hfits : row.fits selfTy args = true) :
    ⟨m, r⟩ ∈ v.collected trait_ key (v.ownersOf trait_ selfTy args) (args.any openArg) := by
  have hkey : key.Admits row.headKey :=
    Row.admits_of_fits (hv.keyed ht row (mem_of_getElem? hrow)) hfits hkey
  cases m with
  | own =>
    refine mem_append_left _ (mem_append_left _ (mem_append_left _ ?_))
    exact mem_flatMap.mpr ⟨t, Option.mem_toList.mpr ht,
      (mem_refsOf (hv.indexed ht)).mpr ⟨rfl, row, hrow, htrait, hkey⟩⟩
  | folder f =>
    obtain ⟨fi, hfi, rfl⟩ := table_folder.mp ht
    have hlt := (List.getElem?_eq_some_iff.mp hrow).1
    obtain ⟨_, hcov, hcovArgs⟩ := Row.covers_of_fits hfits
    have hmember : ∀ {reach : Reach}, row.reach v.owners v.paths f = reach →
        r ∈ section_ v.owners v.paths f fi.table reach := by
      intro reach hreach
      refine mem_filter.mpr ⟨List.mem_range.mpr hlt, ?_⟩
      rw [hrow, Option.any_some, hreach]
      exact decide_eq_true rfl
    have hnonempty : ∀ {l : List ℕ}, r ∈ l → l.isEmpty = false := fun hr =>
      isEmpty_eq_false_iff_exists_mem.mpr ⟨r, hr⟩
    cases hreach : row.reach v.owners v.paths f with
    | owner =>
      refine mem_collected_of_owner hv hfi hrow htrait hkey (mem_ownersOf.mpr ?_)
      unfold Row.reach at hreach
      split at hreach
      · next howner =>
        rcases howner with howner | howner
        · exact .inl (htrait ▸ howner)
        · refine .inr (.inl ((hcov.ownerOfTy hself howner).resolve_right ?_))
          rw [hclosed]
          exact Bool.false_ne_true
      · split at hreach <;> cases hreach
    | arg =>
      have harg : ∃ p ∈ row.headArgs, v.owners.ownerOfTy v.paths p = some f := by
        unfold Row.reach at hreach
        split at hreach
        · cases hreach
        · split at hreach
          · next hany =>
            obtain ⟨p, hp, howner⟩ := any_eq_true.mp hany
            exact ⟨p, hp, of_decide_eq_true howner⟩
          · cases hreach
      -- an argument whose owner is not known makes the probe read the directory
      have hdirectory : (∃ g ∈ args, openArg g = true) → ⟨.folder f, r⟩ ∈ v.collected trait_ key
          (v.ownersOf trait_ selfTy args) (args.any openArg) := by
        intro hopen
        refine mem_append_right _ ?_
        rw [if_pos (any_eq_true.mpr hopen), hv.extra]
        have hargImpls : r ∈ fi.argImpls := by
          rw [hv.folders hfi]
          exact hmember hreach
        refine mem_candidates.mpr ⟨f, fi, row, mem_members.mpr ⟨hfi, ?_⟩, rfl,
          hargImpls, hrow, htrait, hkey⟩
        rw [inUniverse, hnonempty hargImpls, Bool.not_false, Bool.true_or]
      obtain ⟨p, hp, howner⟩ := harg
      obtain ⟨g, hg, hinfer | hcovg⟩ := hcovArgs p hp
      · exact hdirectory ⟨g, hg, openArg_of_isInfer hinfer⟩
      · rcases hcovg.ownerOfTy (hargs g hg) howner with howned | hopen
        · exact mem_collected_of_owner hv hfi hrow htrait hkey
            (mem_ownersOf.mpr (.inr (.inr ⟨g, hg, howned⟩)))
        · exact hdirectory ⟨g, hg, openArg_of_isOpen hopen⟩
    | unowned =>
      refine mem_append_left _ (mem_append_right _ ?_)
      rw [hv.extra]
      have hunowned : r ∈ fi.unowned := by
        rw [hv.folders hfi]
        exact hmember hreach
      refine mem_candidates.mpr ⟨f, fi, row, mem_members.mpr ⟨hfi, ?_⟩, rfl, hunowned,
        hrow, htrait, hkey⟩
      rw [inUniverse, hnonempty hunowned, Bool.not_false, Bool.or_true]

/-! ### Lookup is a scan -/

theorem rowOf_of_mem_looked (hv : v.Built) (h : x ∈ v.looked (v.collected trait_ key owners open_))
    :
    ∃ row, rowOf x = some row ∧ row.trait_ = trait_ := by
  obtain ⟨href, htable⟩ := mem_looked.mp h
  exact row_of_mem_collected hv href htable

theorem row_eq_of_def (hv : v.Built) {m' : TableId} {t' : ImplTable} {row' : Row}
    (ht : v.table m = some t) (ht' : v.table m' = some t') (hrow : row ∈ t.rows)
    (hrow' : row' ∈ t'.rows) (hdef : row.def_ = row'.def_) : row = row' := by
  have hfolder : ∀ {m : TableId} {t : ImplTable} {row : Row}, v.table m = some t → row ∈ t.rows →
      ∃ f fi, v.folder f = some fi ∧ row ∈ fi.table.rows := by
    intro m t row ht hrow
    cases m with
    | own => exact hv.own ht row hrow
    | folder f =>
      obtain ⟨fi, hfi, rfl⟩ := table_folder.mp ht
      exact ⟨f, fi, hfi, hrow⟩
  obtain ⟨f, fi, hfi, hmem⟩ := hfolder ht hrow
  obtain ⟨f', fi', hfi', hmem'⟩ := hfolder ht' hrow'
  exact hv.heads hfi hfi' row hmem row' hmem' hdef

/-- **What was read and fits** is what the scan finds. -/
theorem looked_filter (hv : v.Built) (hself : selfTy.Marked)
    (hclosed : (stripMut selfTy).isOpen = false) (hargs : ∀ a ∈ args, a.Marked)
    (hkey : HeadKey.of selfTy = .ok key) :
    (v.looked (v.collected trait_ key (v.ownersOf trait_ selfTy args)
      (args.any openArg))).filter (fitsGoal selfTy args) =
      v.scan.filter (answers trait_ selfTy args) := by
  refine eq_of_before ((pairwise_looked _).filter _) (pairwise_scan.filter _) fun x => ?_
  rw [mem_filter, mem_filter, mem_scan]
  constructor
  · rintro ⟨hx, hfits⟩
    obtain ⟨row, hrow, htrait⟩ := rowOf_of_mem_looked hv hx
    refine ⟨⟨(mem_looked.mp hx).2, (List.getElem?_eq_some_iff.mp hrow).1⟩, ?_⟩
    rw [fitsGoal, hrow, Option.any_some] at hfits
    rw [answers, hrow, Option.any_some, hfits, Bool.and_true]
    exact decide_eq_true htrait
  · rintro ⟨⟨htable, _⟩, hanswers⟩
    unfold answers at hanswers
    cases hrow : rowOf x with
    | none =>
      rw [hrow] at hanswers
      cases hanswers
    | some row =>
      rw [hrow, Option.any_some, Bool.and_eq_true] at hanswers
      obtain ⟨htrait, hfits⟩ := hanswers
      refine ⟨mem_looked.mpr ⟨?_, htable⟩, ?_⟩
      · exact mem_collected hv hself hclosed hargs hkey htable hrow (of_decide_eq_true htrait) hfits
      · rw [fitsGoal, hrow, Option.any_some, hfits]

end ImplView

open ImplView in
/-- **Owner lookup is a scan**: the rows it returns that fit the goal are the rows of all tables
that answer it, in table order, one for each impl, without those that the context does not see. -/
theorem candidates_scan {v : ImplView} (hv : v.Built) {trait_ : DefId} {selfTy : Ty}
    {args : List Ty} (hself : selfTy.Marked) (hclosed : (stripMut selfTy).isOpen = false)
    (hargs : ∀ a ∈ args, a.Marked) (hkey : ∃ key, HeadKey.of selfTy = .ok key)
    (seen : UniverseReads) :
    ∃ found seen', (Impls.owned v).candidates trait_ selfTy args (args.any openArg) seen =
        .ok (found, seen') ∧
      found.filter (fitsGoal selfTy args) =
        (oneRowPerImpl (v.scan.filter (answers trait_ selfTy args))).filter v.visible := by
  obtain ⟨key, hkey⟩ := hkey
  let refs := v.collected trait_ key (v.ownersOf trait_ selfTy args) (args.any openArg)
  have hsame : ∀ x ∈ v.looked refs, ∀ y ∈ v.looked refs, implOf x = implOf y →
      fitsGoal selfTy args x = fitsGoal selfTy args y := by
    intro x hx y hy himpl
    obtain ⟨row, hrow, _⟩ := rowOf_of_mem_looked hv hx
    obtain ⟨row', hrow', _⟩ := rowOf_of_mem_looked hv hy
    unfold implOf at himpl
    unfold rowOf at hrow hrow'
    rw [hrow, hrow', Option.map_some, Option.map_some, Option.some.injEq] at himpl
    have heq := row_eq_of_def hv (mem_looked.mp hx).2 (mem_looked.mp hy).2
      (List.mem_of_getElem? hrow) (List.mem_of_getElem? hrow') himpl
    rw [fitsGoal, fitsGoal, rowOf, rowOf, hrow, hrow', heq]
  have hfound : (Impls.owned v).candidates trait_ selfTy args (args.any openArg) seen =
      .ok (v.pick refs,
        { dir := seen.dir || args.any openArg
          unowned := seen.unowned || !(v.extra.unowned.candidates trait_ key).isEmpty }) := by
    unfold Impls.candidates
    rw [hkey]
    rfl
  refine ⟨_, _, hfound, ?_⟩
  calc
    (v.pick refs).filter (fitsGoal selfTy args)
      = ((oneRowPerImpl (v.looked refs)).filter (fitsGoal selfTy args)).filter v.visible := by
        rw [pick_eq, List.filter_filter, List.filter_filter]
        exact List.filter_congr fun x _ => Bool.and_comm _ _
    _ = (oneRowPerImpl ((v.looked refs).filter (fitsGoal selfTy args))).filter v.visible := by
        rw [oneRowPerImpl, Firsts.firsts_filter hsame]
        rfl
    _ = _ := by rw [looked_filter hv hself hclosed hargs hkey]

/-! ### The views that the driver builds -/

namespace ImplView

variable {pathHash : DefId → ℕ} {owners : OwnerMap} {paths : Paths} {own : List ImplItem}
  {closure : List (Option (List ImplItem))} {hidden : List DefId} {v : ImplView}

/-- What a folder of a closure gives. -/
def buildFolder (pathHash : DefId → ℕ) (owners : OwnerMap) (paths : Paths)
    (x : Option (List ImplItem) × FolderId) : Except Panic (Option FolderImpls) :=
  match x.1 with
  | some items => some <$> folderImpls pathHash owners paths x.2 items
  | none => pure none

variable {items? : Option (List ImplItem)} {f : FolderId} {fi : FolderImpls}

theorem buildFolder_eq_ok :
    buildFolder pathHash owners paths (items?, f) = .ok (some fi) ↔
      ∃ items, items? = some items ∧ folderImpls pathHash owners paths f items = .ok fi := by
  unfold buildFolder
  cases items? with
  | none => exact iff_of_false (fun h => nomatch h) fun ⟨_, h, _⟩ => nomatch h
  | some items =>
    cases hfolder : folderImpls pathHash owners paths f items with
    | error e =>
      refine iff_of_false (fun h => ?_) fun ⟨_, hitems, h⟩ => ?_
      · dsimp only at h
        rw [hfolder] at h
        cases h
      · rw [← Option.some.inj hitems, hfolder] at h
        cases h
    | ok fi' =>
      dsimp only
      rw [hfolder]
      refine ⟨fun h => ⟨items, rfl, ?_⟩, fun ⟨_, hitems, h⟩ => ?_⟩
      · rw [hfolder]
        exact congrArg _ (Option.some.inj (Except.ok.inj h))
      · rw [← Option.some.inj hitems, hfolder] at h
        rw [Except.ok.inj h]
        rfl

theorem build_spec (h : build pathHash owners paths own closure hidden = .ok v) :
    v.owners = owners ∧ v.paths = paths ∧ v.extra = UniverseImpls.new (members v.folders) ∧
      (∀ t, v.own = some t → implTable pathHash own = .ok t) ∧
      List.Forall₂ (fun x fi? => buildFolder pathHash owners paths x = .ok fi?)
        closure.zipIdx v.folders := by
  unfold build at h
  cases hown : implTable pathHash own with
  | error e =>
    rw [hown] at h
    cases h
  | ok t =>
    rw [hown] at h
    cases hfolders : closure.zipIdx.mapM (buildFolder pathHash owners paths) with
    | error e =>
      change (closure.zipIdx.mapM (buildFolder pathHash owners paths) >>= _) = _ at h
      rw [hfolders] at h
      cases h
    | ok folders =>
      change (closure.zipIdx.mapM (buildFolder pathHash owners paths) >>= _) = _ at h
      rw [hfolders] at h
      obtain rfl := Except.ok.inj h
      exact ⟨rfl, rfl, rfl, fun t' ht' => Option.some.inj ht' ▸ rfl, forall₂_of_mapM hfolders⟩

variable {items : List ImplItem}

theorem buildFolder_some {fi? : Option FolderImpls}
    (h : buildFolder pathHash owners paths (some items, f) = .ok fi?) : fi?.isSome = true := by
  unfold buildFolder at h
  dsimp only at h
  cases hfolder : folderImpls pathHash owners paths f items with
  | error e =>
    rw [hfolder] at h
    cases h
  | ok fi =>
    rw [hfolder] at h
    rw [← Except.ok.inj h]
    rfl

/-- What the driver makes of the folder at an index. -/
theorem buildFolder_at
    (h : List.Forall₂ (fun x fi? => buildFolder pathHash owners paths x = .ok fi?)
      closure.zipIdx v.folders) (hget : closure[f]? = some items?) :
    ∃ fi?, v.folders[f]? = some fi? ∧ buildFolder pathHash owners paths (items?, f) = .ok fi? := by
  obtain ⟨hlt, rfl⟩ := List.getElem?_eq_some_iff.mp hget
  have hlen : closure.zipIdx.length = v.folders.length := h.length_eq
  have hlt' : f < closure.zipIdx.length := by rwa [length_zipIdx]
  have hat := List.Forall₂.get h hlt' (hlen ▸ hlt')
  simp only [get_eq_getElem, getElem_zipIdx, Nat.zero_add] at hat
  exact ⟨_, List.getElem?_eq_getElem _, hat⟩

theorem folder_eq_some
    (h : List.Forall₂ (fun x fi? => buildFolder pathHash owners paths x = .ok fi?)
      closure.zipIdx v.folders) :
    v.folder f = some fi ↔ ∃ items, closure[f]? = some (some items) ∧
      folderImpls pathHash owners paths f items = .ok fi := by
  unfold folder
  rw [Option.join_eq_some_iff]
  constructor
  · intro hget
    have hlt : f < closure.length := by
      rw [← length_zipIdx (i := 0), h.length_eq]
      exact (List.getElem?_eq_some_iff.mp hget).1
    obtain ⟨fi?, hfi, hf⟩ := buildFolder_at h (List.getElem?_eq_getElem hlt)
    rw [hget] at hfi
    obtain rfl := Option.some.inj hfi
    obtain ⟨items, hitems, hfolder⟩ := buildFolder_eq_ok.mp hf
    exact ⟨items, hitems ▸ List.getElem?_eq_getElem hlt, hfolder⟩
  · rintro ⟨items, hget, hfi⟩
    obtain ⟨fi?, hfolder, hf⟩ := buildFolder_at h hget
    rw [buildFolder_eq_ok.mpr ⟨items, rfl, hfi⟩] at hf
    rw [hfolder, Except.ok.inj hf]

theorem folderImpls_spec (h : folderImpls pathHash owners paths f items = .ok fi) :
    implTable pathHash items = .ok fi.table ∧ fi = FolderImpls.new owners paths f fi.table := by
  unfold folderImpls at h
  cases ht : implTable pathHash items with
  | error e =>
    rw [ht] at h
    cases h
  | ok t =>
    rw [ht] at h
    obtain rfl := Except.ok.inj h
    exact ⟨rfl, rfl⟩

/-- **A view that is built** from a program: the own impls are impls of a folder, and an impl is
declared once. -/
theorem built_of_build (hinj : Function.Injective pathHash)
    (h : build pathHash owners paths own closure hidden = .ok v)
    (hown : ∀ i ∈ own, ∃ items, some items ∈ closure ∧ i ∈ items)
    (honce : ∀ items items', some items ∈ closure → some items' ∈ closure →
      ∀ i ∈ items, ∀ i' ∈ items', i.def_ = i'.def_ → i = i') : v.Built := by
  obtain ⟨rfl, rfl, hextra, hownTable, hfolders⟩ := build_spec h
  have htable : ∀ {m t}, v.table m = some t → ∃ items, implTable pathHash items = .ok t := by
    intro m t ht
    cases m with
    | own => exact ⟨own, hownTable t ht⟩
    | folder f =>
      obtain ⟨fi, hfi, rfl⟩ := table_folder.mp ht
      obtain ⟨items, -, heq⟩ := (folder_eq_some hfolders).mp hfi
      exact ⟨items, (folderImpls_spec heq).1⟩
  refine ⟨fun ht => ?_, fun ht => ?_, fun hfi => ?_, hextra, fun {t} ht row hrow => ?_,
    fun hfi hfi' row hrow row' hrow' hdef => ?_⟩
  · obtain ⟨items, heq⟩ := htable ht
    exact indexed_implTable hinj heq
  · obtain ⟨items, heq⟩ := htable ht
    exact keyed_implTable heq
  · obtain ⟨items, -, heq⟩ := (folder_eq_some hfolders).mp hfi
    exact (folderImpls_spec heq).2
  · obtain ⟨i, hi, hsource⟩ := (mem_implTable (hownTable t ht)).mp hrow
    obtain ⟨items, hitems, hmem⟩ := hown i hi
    obtain ⟨f, hf⟩ := mem_iff_getElem?.mp hitems
    obtain ⟨fi, hfi⟩ : ∃ fi, v.folder f = some fi := by
      obtain ⟨fi?, hfi, hbuilt⟩ := buildFolder_at hfolders hf
      obtain ⟨fi, rfl⟩ := Option.isSome_iff_exists.mp (buildFolder_some hbuilt)
      exact ⟨fi, Option.join_eq_some_iff.mpr hfi⟩
    obtain ⟨items', hf', heq⟩ := (folder_eq_some hfolders).mp hfi
    obtain rfl := Option.some.inj (Option.some.inj (hf.symm.trans hf'))
    exact ⟨f, fi, hfi, (mem_implTable (folderImpls_spec heq).1).mpr ⟨i, hmem, hsource⟩⟩
  · obtain ⟨items, hf, heq⟩ := (folder_eq_some hfolders).mp hfi
    obtain ⟨items', hf', heq'⟩ := (folder_eq_some hfolders).mp hfi'
    obtain ⟨i, hi, htrait, -, hirow⟩ := (mem_implTable (folderImpls_spec heq).1).mp hrow
    obtain ⟨i', hi', htrait', -, hirow'⟩ := (mem_implTable (folderImpls_spec heq').1).mp hrow'
    have hsame : i.def_ = i'.def_ := by
      rw [← (ImplItem.row_spec hirow).2.1, ← (ImplItem.row_spec hirow').2.1, hdef]
    obtain rfl := honce items items' (mem_of_getElem? hf) (mem_of_getElem? hf') i hi i' hi' hsame
    rw [Option.some.inj (htrait.symm.trans htrait')] at hirow
    exact Except.ok.inj (hirow.symm.trans hirow')

end ImplView

/-! ### A program of two folders -/

section Sample

/-- Two modules; the even paths are in one and the odd ones in the other. -/
def samplePaths : Paths where
  isModule p := p < 2
  parent p := if p < 2 then none else some (p % 2)
  parent_lt {p q} h := by
    split at h
    · cases h
    · obtain rfl := Option.some.inj h
      omega

/-- An impl of the trait 10 for the data type 21, in that type's folder. -/
def sampleImpl : ImplItem where
  trait_ := some 10
  def_ := 31
  selfTy := .adt 21 []
  traitArgs := []
  kind := .written

/-- The tables of the two folders. -/
def sampleTable (folder : FolderId) : ImplTable :=
  match folder with
  | 0 => ImplTable.index ⟨[], SortedMap.empty, []⟩
  | _ => ImplTable.index ⟨[⟨10, 31, .ctor 21, .adt 21 [], [], .written⟩], Slices.ranges [10], []⟩

def sampleFolder (folder : FolderId) : FolderImpls :=
  FolderImpls.new ⟨some⟩ samplePaths folder (sampleTable folder)

/-- A context that sees both folders and has no impls of its own. -/
def sampleView : ImplView where
  paths := samplePaths
  owners := ⟨some⟩
  own := some (sampleTable 0)
  folders := [some (sampleFolder 0), some (sampleFolder 1)]
  extra := UniverseImpls.new (members [some (sampleFolder 0), some (sampleFolder 1)])
  hidden := []

theorem built_sampleView : sampleView.Built := by
  have hbuild : ImplView.build id ⟨some⟩ samplePaths [] [some [], some [sampleImpl]] [] =
      .ok sampleView := rfl
  refine ImplView.built_of_build Function.injective_id hbuild (fun i hi => ?_) ?_
  · exact absurd hi not_mem_nil
  · have hone : ∀ items, some items ∈ [some [], some [sampleImpl]] → ∀ i ∈ items,
        i = sampleImpl := by
      intro items hitems i hi
      simp only [mem_cons, Option.some.injEq, not_mem_nil, or_false] at hitems
      obtain rfl | rfl := hitems
      · exact absurd hi not_mem_nil
      · exact mem_singleton.mp hi
    intro items items' hitems hitems' i hi i' hi' _
    rw [hone items hitems i hi, hone items' hitems' i' hi']

end Sample

/-- A goal for the data type finds the impl of its folder. -/
theorem candidates_scan_sample :
    ∃ found seen', (Impls.owned sampleView).candidates 10 (.adt 21 []) [] false ⟨false, false⟩ =
        .ok (found, seen') ∧
      found.filter (fitsGoal (.adt 21 []) []) =
        (oneRowPerImpl (sampleView.scan.filter (answers 10 (.adt 21 []) []))).filter
          sampleView.visible :=
  candidates_scan built_sampleView (by rfl) (by rfl) (fun _ h => absurd h List.not_mem_nil)
    ⟨_, rfl⟩ _

/-- A goal whose self type is a variable has no owner beside its trait's, so the impl that is in its
self type's folder is not found. -/
theorem not_candidates_scan :
    ¬∀ (v : ImplView), v.Built → ∀ (trait_ : DefId) (selfTy : Ty) (args : List Ty)
      (seen seen' : UniverseReads) (found : List (ImplRef × ImplTable)),
      (Impls.owned v).candidates trait_ selfTy args (args.any openArg) seen = .ok (found, seen') →
        found.filter (fun x => (rowOf x).any fun row => row.matchHead selfTy args != .no) =
          oneRowPerImpl (v.scan.filter fun x => (rowOf x).any fun row =>
            row.trait_ = trait_ && row.matchHead selfTy args != .no) := by
  intro h
  have hfound := h sampleView built_sampleView 10 (.infer 0) [] ⟨false, false⟩ ⟨false, false⟩ [] rfl
  have hmatch : Row.matchHead ⟨10, 31, .ctor 21, .adt 21 [], [], .written⟩ (.infer 0) [] =
      .maybe := by
    unfold Row.matchHead
    rw [matchTy.eq_def]
    decide
  have hscan : sampleView.scan = [(⟨.folder 1, 0⟩, sampleTable 1)] := rfl
  have hrow : rowOf (⟨.folder 1, 0⟩, sampleTable 1) =
      some ⟨10, 31, .ctor 21, .adt 21 [], [], .written⟩ := rfl
  rw [List.filter_nil, hscan, List.filter_cons, hrow, Option.any_some, hmatch] at hfound
  cases hfound

end HdLang.Types
